import KernelHashtable.KList
import KernelHashtable.Lib.Arena
import KernelHashtable.Lib.Strings

/-!
# The leak detector of leak_detector_c.c

A record is a block of the plain allocator that holds the information on one block of
the program; the records form a ring through the static `_head`, which is set up by the
first record. Functions return `none` where the C code has no defined meaning or the
allocator would not give the answers proposed to it.

A call comes with its file name, and with what `add_mem_info` finds in the name buffer of its
local `info` and behind it: `strncpy` leaves the last byte of the buffer alone, and `strcpy`
reads on to the first zero. `fwrite` writes what it is given.
-/

namespace KernelHashtable.Leak
open KList

def fileNameLength : ℕ := 512

def outputFile : String := "/tmp/leak_info.txt"

def sizeofMemleak : ℕ := 552

structure MemInfo where
  address : ℕ
  size : UInt32
  fileName : List UInt8
  line : UInt32

structure Detector where
  heap : Arena
  links : Links (Loc ℕ)
  info : ℕ → MemInfo
  memleakFlag : Bool

def Detector.ok (d : Detector) : Loc ℕ → Bool
  | .head => true
  | .node a => d.heap.live a

@[simp] theorem Detector.ok_head (d : Detector) : d.ok .head = true := rfl

@[simp] theorem Detector.ok_node (d : Detector) (a : ℕ) : d.ok (.node a) = d.heap.live a := rfl

structure Site where
  file : List UInt8
  line : UInt32
  buffer : List UInt8
  beyond : List UInt8
  string : 0 ∉ file
  array : buffer.length = fileNameLength + 1

/-- `__add_memleak_list`, whose stores are those of `__k_list_add`. -/
def addMemleakList (d : Detector) (new prev next : Ptr (Loc ℕ)) : Option Detector := do
  let links ← listAdd d.ok d.links new prev next
  return { d with links := links }

def memleakAddListTail (d : Detector) (new head : Ptr (Loc ℕ)) : Option Detector := do
  let prev ← d.links.loadPrev d.ok head
  addMemleakList d new prev head

/-- `del_memleak_list`, with `__del_memleak_list` as `__k_list_del`. -/
def delMemleakList (d : Detector) (entry : ℕ) : Option Detector := do
  let prev ← d.links.loadPrev d.ok (.addr (.node entry))
  let next ← d.links.loadNext d.ok (.addr (.node entry))
  let links ← listDel d.ok d.links prev next
  let heap ← d.heap.free entry
  return { d with links := links, heap := heap }

/-- The part of `add` under `if (!memleak_flag)`. -/
def setUpHead (d : Detector) : Option Detector :=
  if d.memleakFlag then some d else do
    let links ← d.links.storePrev d.ok (.addr .head) (.addr .head)
    let links ← links.storeNext d.ok (.addr .head) (.addr .head)
    return { d with links := links, memleakFlag := true }

/-- `add`, for a record at the address `new`. The result of `malloc` is not checked, and neither
array of the copy may be left. -/
def add (d : Detector) (new : ℕ) (allocInfo : MemInfo) (beyond : List UInt8) :
    Option Detector := do
  let heap ← d.heap.malloc new sizeofMemleak
  guard (new ≠ 0)
  guard (strcpyExtent (allocInfo.fileName ++ beyond) ≤ fileNameLength + 1)
  let fileName := strcpy (d.info new).fileName (allocInfo.fileName ++ beyond)
  let d := { d with
    heap := heap
    info := Function.update d.info new { allocInfo with fileName := fileName } }
  let d ← setUpHead d
  memleakAddListTail d (.addr (.node new)) (.addr .head)

def addMemInfo (d : Detector) (new memRef : ℕ) (size : UInt32) (site : Site) :
    Option Detector :=
  add d new ⟨memRef, size, strncpy site.buffer site.file fileNameLength, site.line⟩ site.beyond

def removeLoop (d : Detector) (memRef : ℕ) : ℕ → Ptr (Loc ℕ) → Option Detector
  | 0, _ => none
  | fuel + 1, curr => do
    let next ← d.links.loadNext d.ok curr
    match next with
    | .addr .head => return d
    | .addr (.node a) => do
      guard (d.heap.live a)
      if (d.info a).address = memRef then delMemleakList d a
      else removeLoop d memRef fuel (.addr (.node a))
    | _ => none

/-- There cannot be more records than requests granted so far. -/
def removeMemInfo (d : Detector) (memRef : ℕ) : Option Detector :=
  removeLoop d memRef (d.heap.granted + 1) (.addr .head)

/-- `ptr` and `new` are the answers to the two requests. -/
def xmalloc (d : Detector) (ptr new : ℕ) (size : UInt32) (site : Site) :
    Option (ℕ × Detector) := do
  let heap ← d.heap.malloc ptr size.toNat
  let d := { d with heap := heap }
  let d ← if ptr ≠ 0 then addMemInfo d new ptr size site else some d
  return (ptr, d)

def xcalloc (d : Detector) (ptr new : ℕ) (elements size : UInt32) (site : Site) :
    Option (ℕ × Detector) := do
  let heap ← d.heap.malloc ptr (elements.toNat * size.toNat)
  let d := { d with heap := heap }
  let d ← if ptr ≠ 0 then addMemInfo d new ptr (elements * size) site else some d
  return (ptr, d)

def xrealloc (d : Detector) (old ptr new : ℕ) (size : UInt32) (site : Site) :
    Option (ℕ × Detector) := do
  let d ← removeMemInfo d old
  let heap ← d.heap.realloc old ptr size.toNat
  let d ← addMemInfo { d with heap := heap } new ptr size site
  return (ptr, d)

def xfree (d : Detector) (memRef : ℕ) : Option Detector := do
  let d ← removeMemInfo d memRef
  let heap ← d.heap.free memRef
  return { d with heap := heap }

def headInfo : MemInfo := ⟨0, 0, List.replicate (fileNameLength + 1) 0, 0⟩

def Detector.memInfo (d : Detector) : Loc ℕ → MemInfo
  | .head => headInfo
  | .node a => d.info a

@[simp] theorem Detector.memInfo_node (d : Detector) (a : ℕ) :
    d.memInfo (.node a) = d.info a := rfl

def ascii (s : String) : List UInt8 := s.toList.map fun c => c.toNat.toUInt8

structure Report where
  file : List UInt8
  stdout : List UInt8
  perror : List String

/-- `sprintf` into the 1024 bytes of `info`, and `fwrite` with the zero at its end. -/
def Report.write (r : Report) (text : List UInt8) : Option Report := do
  guard (text.length < 1024)
  return { r with file := r.file ++ (text ++ [0]) }

def rule : List UInt8 := ascii "-----------------------------------\n"

def summaryTexts : List (List UInt8) := [ascii "Memory Leak Summary\n", rule]

/-- The address is printed as a `size_t`, and the line number, an `unsigned int`, with `%d`. -/
def recordTexts (m : MemInfo) : List (List UInt8) :=
  [ascii "address : " ++ ascii (UInt64.ofNat m.address).toNat.repr ++ ascii "\n",
    ascii "size    : " ++ ascii m.size.toNat.repr ++ ascii " bytes\n",
    ascii "file    : " ++ cString m.fileName ++ ascii "\n",
    ascii "line    : " ++ ascii m.line.toInt32.toInt.repr ++ ascii "\n",
    rule]

def reportRecord (r : Report) (m : MemInfo) : Option Report := do
  guard (0 ∈ m.fileName)
  (recordTexts m).foldlM Report.write { r with stdout := r.stdout ++ ascii "HIT\n" }

def reportLoop (d : Detector) : ℕ → Report → Ptr (Loc ℕ) → Option Report
  | 0, _, _ => none
  | fuel + 1, r, curr => do
    let next ← d.links.loadNext d.ok curr
    if next = .addr .head then return r
    else
      let node ← curr.deref d.ok
      let r ← reportRecord r (d.memInfo node)
      reportLoop d fuel r next

/-- `report_mem_leak` up to the call of `clear`. -/
def leakReport (d : Detector) (fopen : String → String → Bool) : Option Report := do
  let curr ← d.links.loadNext d.ok (.addr .head)
  if fopen outputFile "wt" then
    let r ← summaryTexts.foldlM Report.write ⟨[], [], []⟩
    reportLoop d (d.heap.granted + 1) r curr
  else return ⟨[], [], ["Open leak_detector_c infofile error"]⟩

def freeNode (h : Arena) : Loc ℕ → Option Arena
  | .head => none
  | .node a => h.free a

def clearLoop (d : Detector) : ℕ → Ptr (Loc ℕ) → Option Detector
  | 0, _ => none
  | fuel + 1, curr => do
    let next ← d.links.loadNext d.ok curr
    if next = .addr .head then return d
    else
      let node ← curr.deref d.ok
      let heap ← freeNode d.heap node
      clearLoop { d with heap := heap } fuel next

def clear (d : Detector) : Option Detector :=
  clearLoop d (d.heap.granted + 1) (.addr .head)

def reportMemLeak (d : Detector) (fopen : String → String → Bool) :
    Option (Report × Detector) := do
  let r ← leakReport d fopen
  let d ← clear d
  return (r, d)

end KernelHashtable.Leak
