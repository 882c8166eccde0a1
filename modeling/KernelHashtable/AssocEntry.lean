import KernelHashtable.AssocArray

/-!
# Entries of the associative array and what the callbacks do to them

An `Item` is what an entry stands for: its block, its key pointer, the key bytes, the
data. The callbacks of an array take an item from nothing to a filled entry and back;
`Filled` and `Released` say all that they change in the store.
-/

namespace KernelHashtable.Assoc

structure Key where
  bytes : List UInt8
  short : bytes.length < 256
  deriving DecidableEq

namespace Key

theorem ext_bytes {j k : Key} (h : j.bytes = k.bytes) : j = k := by
  cases j
  cases k
  simpa using h

def ptr (k : Key) : KeyPtr := .caller k.bytes

def size (k : Key) : UInt8 := UInt8.ofNat k.bytes.length

@[simp] theorem size_toNat (k : Key) : k.size.toNat = k.bytes.length :=
  UInt8.toNat_ofNat_of_lt k.short

@[simp] theorem read_ptr (st : Store) (k : Key) :
    st.read k.ptr k.bytes.length = some k.bytes := by
  simp [Store.read, Store.object, ptr]

end Key

structure Item where
  entry : ℕ
  ptr : KeyPtr
  key : Key
  data : ℕ
  deriving DecidableEq

def KeyPtr.blocks : KeyPtr → List ℕ
  | .block b => [b]
  | _ => []

def Item.blocks (c : Item) : List ℕ := c.entry :: c.ptr.blocks

def Callbacks.Stores : Callbacks → KeyPtr → Prop
  | .default _, ptr => ∃ b, ptr = .block b
  | .mac _, ptr => ∃ bytes, ptr = .caller bytes

/-- The data that the callbacks can free: `free_entry` of main.c reads a field of it. -/
def Callbacks.Accepts : Callbacks → ℕ → Prop
  | .default _, _ => True
  | .mac _, data => data ≠ 0

def Callbacks.dataBlocks : Callbacks → ℕ → List ℕ
  | .default _, data => if data = 0 then [] else [data]
  | .mac hostname, data =>
    (if hostname data = 0 then [] else [hostname data]) ++ (if data = 0 then [] else [data])

structure Holds (cb : Callbacks) (st : Store) (c : Item) : Prop where
  live : st.heap.live c.entry = true
  ptr : st.key c.entry = c.ptr
  object : st.object c.ptr = some c.key.bytes
  size : st.keySize c.entry = c.key.size
  data : st.data c.entry = c.data
  stores : cb.Stores c.ptr
  accepts : cb.Accepts c.data

structure SameAt (st st' : Store) (c : Item) : Prop where
  key : st'.key c.entry = st.key c.entry
  size : st'.keySize c.entry = st.keySize c.entry
  data : st'.data c.entry = st.data c.entry
  live : ∀ b ∈ c.blocks, st'.heap.live b = st.heap.live b
  bytes : ∀ b ∈ c.blocks, st'.heap.bytes b = st.heap.bytes b

theorem Holds.live_blocks {cb : Callbacks} {st : Store} {c : Item} (hc : Holds cb st c) :
    ∀ b ∈ c.blocks, st.heap.live b = true := by
  intro b hb
  rcases List.mem_cons.mp hb with rfl | hb
  · exact hc.live
  · cases hp : c.ptr with
    | block b' =>
      rw [hp] at hb
      obtain rfl := List.mem_singleton.mp hb
      by_contra hl
      have ho := hc.object
      simp [Store.object, hp, hl] at ho
    | null => simp [KeyPtr.blocks, hp] at hb
    | caller bs => simp [KeyPtr.blocks, hp] at hb

theorem Holds.frame {cb : Callbacks} {st st' : Store} {c : Item} (hc : Holds cb st c)
    (hs : SameAt st st' c) : Holds cb st' c := by
  refine ⟨(hs.live _ (by simp [Item.blocks])).trans hc.live, hs.key.trans hc.ptr, ?_,
    hs.size.trans hc.size, hs.data.trans hc.data, hc.stores, hc.accepts⟩
  rw [← hc.object]
  cases hp : c.ptr with
  | null => rfl
  | caller bs => rfl
  | block b =>
    have hb : b ∈ c.blocks := by simp [Item.blocks, KeyPtr.blocks, hp]
    simp only [Store.object, hs.live b hb, hs.bytes b hb]

structure Released (cb : Callbacks) (st st' : Store) (c : Item) : Prop where
  key : st'.key = st.key
  keySize : st'.keySize = st.keySize
  data : st'.data = st.data
  live : ∀ b, st'.heap.live b = (st.heap.live b && decide (b ∉ c.blocks))
  bytes : st'.heap.bytes = st.heap.bytes
  size : st'.heap.size = st.heap.size
  fresh : st'.heap.fresh = st.heap.fresh
  calls : st'.heap.calls = st.heap.calls
  grants : st'.heap.grants = st.heap.grants
  balanced : st.heap.Balanced → st'.heap.Balanced
  foreign : ∀ d, st'.heap.freed.count (.foreign d) =
    st.heap.freed.count (.foreign d) + (cb.dataBlocks c.data).count d

theorem freeForeign_count (h : Heap) (d e : ℕ) : (h.freeForeign d).freed.count (.foreign e) =
    h.freed.count (.foreign e) + (if d = 0 then [] else [d]).count e := by
  unfold Heap.freeForeign
  split_ifs with hd
  · rfl
  · simp [List.count_cons]

theorem freeAssocArrayEntry_released {refuses : ℕ → Bool} {st : Store} {c : Item}
    (hc : Holds (.default refuses) st c) (hnd : c.blocks.Nodup) :
    ∃ st', freeAssocArrayEntry st c.entry = some st' ∧
      Released (.default refuses) st st' c := by
  obtain ⟨b, hb⟩ := hc.stores
  have hblocks : c.blocks = [c.entry, b] := by simp [Item.blocks, KeyPtr.blocks, hb]
  have hne : c.entry ≠ b := by
    rw [hblocks] at hnd
    simpa using hnd
  have hlb : st.heap.live b = true := hc.live_blocks b (by simp [hblocks])
  let h₁ := st.heap.freeForeign c.data
  have hl₁ : h₁.live b = true := by simpa [h₁] using hlb
  have hl₂ : (h₁.release b).live c.entry = true := by simp [h₁, hc.live, hne]
  refine ⟨{ st with heap := (h₁.release b).release c.entry }, ?_, ?_⟩
  · simp [freeAssocArrayEntry, guard, hc.live, hc.ptr, hb, hc.data, Store.freeKey, Store.freeData,
      Store.freeEntryBlock, Heap.free_live hl₁, Heap.free_live hl₂, h₁]
  · refine ⟨rfl, rfl, rfl, fun e => ?_, ?_, ?_, ?_, ?_, ?_, fun hbal => ?_, fun d => ?_⟩
    · simp [h₁, hblocks, Bool.and_assoc, and_comm]
    · exact Heap.freeForeign_bytes _ _
    · exact Heap.freeForeign_size _ _
    · exact Heap.freeForeign_fresh _ _
    · exact Heap.freeForeign_calls _ _
    · exact Heap.freeForeign_grants _ _
    · exact ((hbal.freeForeign _).release hl₁).release hl₂
    · simp [h₁, Callbacks.dataBlocks, freeForeign_count]

theorem freeMacEntry_released {hostname : ℕ → ℕ} {st : Store} {c : Item}
    (hc : Holds (.mac hostname) st c) : ∃ st', freeMacEntry hostname st c.entry = some st' ∧
      Released (.mac hostname) st st' c := by
  obtain ⟨bytes, hb⟩ := hc.stores
  have hblocks : c.blocks = [c.entry] := by simp [Item.blocks, KeyPtr.blocks, hb]
  have hdata : c.data ≠ 0 := hc.accepts
  let h₁ := (st.heap.freeForeign (hostname c.data)).freeForeign c.data
  have hl₁ : h₁.live c.entry = true := by simp [h₁, hc.live]
  refine ⟨{ st with heap := h₁.release c.entry }, ?_, ?_⟩
  · simp [freeMacEntry, guard, hc.live, hc.data, hdata, Store.freeData, Store.freeEntryBlock,
      Heap.free_live hl₁, h₁]
  · refine ⟨rfl, rfl, rfl, fun e => ?_, ?_, ?_, ?_, ?_, ?_, fun hbal => ?_, fun d => ?_⟩
    · simp [h₁, hblocks]
    · simp [h₁, Heap.release]
    · simp [h₁, Heap.release]
    · simp [h₁]
    · simp [h₁, Heap.release]
    · simp [h₁, Heap.release]
    · exact ((hbal.freeForeign _).freeForeign _).release hl₁
    · simp [h₁, Callbacks.dataBlocks, freeForeign_count, List.count_append, Nat.add_assoc]

theorem freeEntry_released {cb : Callbacks} {st : Store} {c : Item} (hc : Holds cb st c)
    (hnd : c.blocks.Nodup) :
    ∃ st', cb.freeEntry st c.entry = some st' ∧ Released cb st st' c := by
  cases cb with
  | default refuses => exact freeAssocArrayEntry_released hc hnd
  | mac hostname => exact freeMacEntry_released hc

theorem fillEntry_default {refuses : ℕ → Bool} {st : Store} (hno : refuses st.heap.calls = false) :
    (Callbacks.default refuses).fillEntry st = fillAssocArrayEntry st := by
  simp [Callbacks.fillEntry, hno]

theorem fillEntry_mock {refuses : ℕ → Bool} {st : Store} (hno : refuses st.heap.calls = true) :
    (Callbacks.default refuses).fillEntry st = mockArrayFillFunc st := by
  simp [Callbacks.fillEntry, hno]

structure Filled (cb : Callbacks) (st st' : Store) (c : Item) : Prop where
  holds : Holds cb st' c
  key : ∀ e, e ≠ c.entry → st'.key e = st.key e
  keySize : ∀ e, e ≠ c.entry → st'.keySize e = st.keySize e
  data : ∀ e, e ≠ c.entry → st'.data e = st.data e
  nodup : c.blocks.Nodup
  new : ∀ b ∈ c.blocks, st.heap.fresh ≤ b
  live : ∀ b, st'.heap.live b = (st.heap.live b || decide (b ∈ c.blocks))
  bytes : ∀ b, b < st.heap.fresh → st'.heap.bytes b = st.heap.bytes b
  size : ∀ b, b < st.heap.fresh → st'.heap.size b = st.heap.size b
  grants : st'.heap.grants = st.heap.grants
  balanced : st.heap.Balanced → st'.heap.Balanced
  freed : st'.heap.freed = st.heap.freed

def Callbacks.FillGranted (cb : Callbacks) (h : Heap) (k : Key) : Prop :=
  h.grants h.calls sizeofAssocArrayEntry = true ∧
    match cb with
    | .default refuses =>
      refuses (h.calls + 1) = false ∧ h.grants (h.calls + 1) k.bytes.length = true
    | .mac _ => True

def Store.grantEntry (st : Store) : Store :=
  { st with heap := st.heap.grant sizeofAssocArrayEntry }

theorem filled_update {cb : Callbacks} {st : Store} {h : Heap} {c : Item}
    (hstores : cb.Stores c.ptr) (hd : cb.Accepts c.data) (hnd : c.blocks.Nodup)
    (hnew : ∀ b ∈ c.blocks, st.heap.fresh ≤ b)
    (hlive : ∀ b, h.live b = (st.heap.live b || decide (b ∈ c.blocks)))
    (hobject : ∀ key keySize data,
      Store.object ⟨h, key, keySize, data⟩ c.ptr = some c.key.bytes)
    (hbytes : ∀ b, b < st.heap.fresh → h.bytes b = st.heap.bytes b)
    (hsize : ∀ b, b < st.heap.fresh → h.size b = st.heap.size b)
    (hgrants : h.grants = st.heap.grants) (hbal : st.heap.Balanced → h.Balanced)
    (hfreed : h.freed = st.heap.freed) :
    Filled cb st ⟨h, Function.update st.key c.entry c.ptr,
      Function.update st.keySize c.entry c.key.size,
      Function.update st.data c.entry c.data⟩ c := by
  have hentry : h.live c.entry = true := by simp [hlive, Item.blocks]
  exact ⟨⟨hentry, Function.update_self _ _ _, hobject _ _ _, Function.update_self _ _ _,
    Function.update_self _ _ _, hstores, hd⟩, fun _ he => Function.update_of_ne he _ _,
    fun _ he => Function.update_of_ne he _ _, fun _ he => Function.update_of_ne he _ _,
    hnd, hnew, hlive, hbytes, hsize, hgrants, hbal, hfreed⟩

theorem fillAssocArrayEntry_filled (refuses : ℕ → Bool) {st : Store} {k : Key} (data : ℕ)
    (hg : st.heap.grants (st.heap.calls + 1) k.bytes.length = true) : ∃ st',
      fillAssocArrayEntry st.grantEntry st.heap.fresh data k.ptr k.size = some (0, st') ∧
      Filled (.default refuses) st st'
        ⟨st.heap.fresh, .block (st.heap.fresh + 1), k, data⟩ := by
  let h₁ := st.heap.grant sizeofAssocArrayEntry
  let h₂ := (h₁.grant k.bytes.length).setBytes h₁.fresh k.bytes
  have hmalloc : h₁.malloc k.bytes.length = (some h₁.fresh, h₁.grant k.bytes.length) :=
    Heap.malloc_grant hg
  refine ⟨_, ?_, filled_update (h := h₂) ⟨_, rfl⟩ trivial ?_ ?_ (fun b => ?_) (fun _ _ _ => ?_)
    (fun b hlt => ?_) (fun b hlt => ?_) rfl (fun hbal => ?_) rfl⟩
  · change fillAssocArrayEntry ⟨h₁, st.key, st.keySize, st.data⟩ _ _ _ _ = _
    simp [fillAssocArrayEntry, guard, hmalloc, h₁, h₂]
  · simp [Item.blocks, KeyPtr.blocks]
  · simp [Item.blocks, KeyPtr.blocks]
  · have hl₂ : h₂.live b = (h₁.live b || decide (b = st.heap.fresh + 1)) :=
      Heap.grant_live h₁ k.bytes.length b
    simp only [hl₂, h₁, Heap.grant_live, Item.blocks, KeyPtr.blocks]
    simp [Bool.or_assoc]
  · simp [Store.object, h₂, h₁, Heap.setBytes]
  · have hne : b ≠ st.heap.fresh + 1 := by omega
    simp [h₂, h₁, Heap.setBytes, Heap.grant, hne]
  · have hne : b ≠ st.heap.fresh + 1 := by omega
    simp [h₂, h₁, Heap.setBytes, Heap.grant, hne, hlt.ne]
  · exact ((hbal.grant _).grant _).setBytes _ _

theorem fillMacEntry_filled (hostname : ℕ → ℕ) {st : Store} {k : Key} {data : ℕ}
    (hd : data ≠ 0) : ∃ st',
      fillMacEntry st.grantEntry st.heap.fresh data k.ptr k.size = some (0, st') ∧
      Filled (.mac hostname) st st' ⟨st.heap.fresh, k.ptr, k, data⟩ := by
  let h₁ := st.heap.grant sizeofAssocArrayEntry
  refine ⟨_, ?_, filled_update (h := h₁) ⟨_, rfl⟩ hd ?_ ?_ (fun b => ?_) (fun _ _ _ => rfl)
    (fun _ _ => rfl) (fun b hlt => ?_) rfl (fun hbal => hbal.grant _) rfl⟩
  · simp [fillMacEntry, guard, Store.grantEntry, h₁]
  · simp [Item.blocks, KeyPtr.blocks, Key.ptr]
  · simp [Item.blocks, KeyPtr.blocks, Key.ptr]
  · simp [h₁, Item.blocks, KeyPtr.blocks, Key.ptr]
  · simp [h₁, Heap.grant, hlt.ne]

theorem fillEntry_filled {cb : Callbacks} {st : Store} {k : Key} (data : ℕ)
    (hg : cb.FillGranted st.heap k) (hd : cb.Accepts data) :
    ∃ c st', cb.fillEntry st.grantEntry st.heap.fresh data k.ptr k.size = some (0, st') ∧
      c.entry = st.heap.fresh ∧ c.key = k ∧ c.data = data ∧ Filled cb st st' c := by
  cases cb with
  | default refuses =>
    obtain ⟨st', hfill, hf⟩ := fillAssocArrayEntry_filled refuses data hg.2.2
    refine ⟨_, st', ?_, rfl, rfl, rfl, hf⟩
    rw [fillEntry_default hg.2.1]
    exact hfill
  | mac hostname =>
    obtain ⟨st', hfill, hf⟩ := fillMacEntry_filled hostname hd
    exact ⟨_, st', hfill, rfl, rfl, rfl, hf⟩

structure Undone (st st' : Store) : Prop where
  key : ∀ e, e < st.heap.fresh → st'.key e = st.key e
  keySize : st'.keySize = st.keySize
  data : st'.data = st.data
  live : st'.heap.live = st.heap.live
  bytes : st'.heap.bytes = st.heap.bytes
  size : ∀ b, b < st.heap.fresh → st'.heap.size b = st.heap.size b
  grants : st'.heap.grants = st.heap.grants
  balanced : st'.heap.Balanced
  foreign : ∀ d, st'.heap.freed.count (.foreign d) = st.heap.freed.count (.foreign d)

theorem undone_deny {st : Store} (hb : st.heap.Balanced) :
    Undone st { st with heap := st.heap.deny } :=
  ⟨fun _ _ => rfl, rfl, rfl, rfl, rfl, fun _ _ => rfl, rfl, hb.deny, fun _ => rfl⟩

theorem undone_release {st : Store} {key : ℕ → KeyPtr} {h₁ : Heap} (hb : st.heap.Balanced)
    (hkey : ∀ e, e < st.heap.fresh → key e = st.key e) (hb₁ : h₁.Balanced)
    (hlive : h₁.live = (st.heap.grant sizeofAssocArrayEntry).live)
    (hbytes : h₁.bytes = st.heap.bytes) (hsize : ∀ b, b < st.heap.fresh →
      h₁.size b = st.heap.size b) (hgrants : h₁.grants = st.heap.grants)
    (hfreed : h₁.freed = st.heap.freed) :
    Undone st ⟨h₁.release st.heap.fresh, key, st.keySize, st.data⟩ := by
  have hl : h₁.live st.heap.fresh = true := by simp [hlive]
  refine ⟨hkey, rfl, rfl, hb.release_grant sizeofAssocArrayEntry hlive, hbytes, hsize, hgrants,
    hb₁.release hl, fun d => ?_⟩
  simp [hfreed]

theorem fillEntry_undone {cb : Callbacks} {st : Store} {k : Key} (data : ℕ)
    (hb : st.heap.Balanced) (hg : ¬ cb.FillGranted st.heap k)
    (h₁ : st.heap.grants st.heap.calls sizeofAssocArrayEntry = true) : ∃ st₁ st₂,
      cb.fillEntry st.grantEntry st.heap.fresh data k.ptr k.size = some (1, st₁) ∧
      st₁.freeEntryBlock st.heap.fresh = some st₂ ∧ Undone st st₂ := by
  cases cb with
  | mac hostname => exact absurd ⟨h₁, trivial⟩ hg
  | default refuses =>
    let h := st.heap.grant sizeofAssocArrayEntry
    have hsize : ∀ b, b < st.heap.fresh → h.size b = st.heap.size b := fun b hlt => by
      simp [h, Heap.grant, hlt.ne]
    cases hno : refuses (st.heap.calls + 1) with
    | true =>
      refine ⟨st.grantEntry, ⟨h.release st.heap.fresh, st.key, st.keySize, st.data⟩, ?_, ?_, ?_⟩
      · rw [fillEntry_mock hno]
        rfl
      · have hl : h.live st.heap.fresh = true := by simp [h]
        simp [Store.freeEntryBlock, Store.grantEntry, Heap.free_live hl, h]
      · exact undone_release hb (fun _ _ => rfl) (hb.grant _) rfl rfl hsize rfl rfl
    | false =>
      have hden : h.grants h.calls k.bytes.length = false := by
        by_contra hne
        exact hg ⟨h₁, hno, by simpa [h] using hne⟩
      have hl : h.deny.live st.heap.fresh = true := by simp [h, Heap.deny]
      refine ⟨⟨h.deny, Function.update st.key st.heap.fresh .null, st.keySize, st.data⟩,
        ⟨h.deny.release st.heap.fresh, Function.update st.key st.heap.fresh .null, st.keySize,
          st.data⟩, ?_, ?_, ?_⟩
      · rw [fillEntry_default hno]
        change fillAssocArrayEntry ⟨h, st.key, st.keySize, st.data⟩ _ _ _ _ = _
        simp [fillAssocArrayEntry, guard, Heap.malloc_deny hden, h]
      · simp [Store.freeEntryBlock, Heap.free_live hl]
      · exact undone_release hb (fun e he => Function.update_of_ne he.ne _ _) (hb.grant _).deny
          rfl rfl hsize rfl rfl

end KernelHashtable.Assoc
