import KernelHashtable.LeakStart

/-!
# The sizes of requests

The macros pass the arguments of `malloc` and `calloc` on as `unsigned int`, and the product
that goes into the record is one of `unsigned int` as well.
-/

namespace KernelHashtable.Leak

/-- A request as the program writes it, with arguments of type `size_t`. -/
inductive Request where
  | malloc (size : UInt64)
  | calloc (elements size : UInt64)

namespace Request

def bytes : Request → ℕ
  | .malloc size => size.toNat
  | .calloc elements size => elements.toNat * size.toNat

def call (d : Detector) (ptr new : ℕ) (site : Site) : Request → Option (ℕ × Detector)
  | .malloc size => xmalloc d ptr new size.toUInt32 site
  | .calloc elements size => xcalloc d ptr new elements.toUInt32 size.toUInt32 site

def asked : Request → ℕ
  | .malloc size => size.toUInt32.toNat
  | .calloc elements size => elements.toUInt32.toNat * size.toUInt32.toNat

def noted : Request → UInt32
  | .malloc size => size.toUInt32
  | .calloc elements size => elements.toUInt32 * size.toUInt32

theorem call_eq_request (d : Detector) (ptr new : ℕ) (site : Site) (req : Request) :
    req.call d ptr new site = request d ptr new req.asked req.noted site := by
  cases req with
  | malloc size => exact xmalloc_eq_request d ptr new _ site
  | calloc elements size => exact xcalloc_eq_request d ptr new _ _ site

structure Kept (req : Request) (ptr new : ℕ) (d' : Detector) : Prop where
  asked : req.bytes ≤ d'.heap.size ptr
  noted : (d'.info new).size.toNat = req.bytes

theorem asked_eq_bytes {req : Request} (hfit : req.bytes < 2 ^ 32) : req.asked = req.bytes := by
  cases req with
  | malloc size =>
    rw [asked, UInt64.toNat_toUInt32]
    exact Nat.mod_eq_of_lt hfit
  | calloc elements size =>
    rw [asked, bytes, UInt64.toNat_toUInt32, UInt64.toNat_toUInt32]
    rw [bytes] at hfit
    rcases Nat.eq_zero_or_pos elements.toNat with hzero | helements
    · simp [hzero]
    rcases Nat.eq_zero_or_pos size.toNat with hzero | hsize
    · simp [hzero]
    have hle₁ : elements.toNat ≤ elements.toNat * size.toNat := Nat.le_mul_of_pos_right _ hsize
    have hle₂ : size.toNat ≤ elements.toNat * size.toNat := Nat.le_mul_of_pos_left _ helements
    rw [Nat.mod_eq_of_lt (lt_of_le_of_lt hle₁ hfit), Nat.mod_eq_of_lt (lt_of_le_of_lt hle₂ hfit)]

theorem noted_toNat (req : Request) : req.noted.toNat = req.asked % 2 ^ 32 := by
  cases req with
  | malloc size => exact (Nat.mod_eq_of_lt size.toUInt32.toNat_lt).symm
  | calloc elements size => exact UInt32.toNat_mul _ _

theorem kept_iff (req : Request) :
    (req.bytes ≤ req.asked ∧ req.noted.toNat = req.bytes) ↔ req.bytes < 2 ^ 32 := by
  constructor
  · rintro ⟨-, hnoted⟩
    rw [← hnoted]
    exact req.noted.toNat_lt
  · intro hfit
    have hasked := asked_eq_bytes hfit
    rw [noted_toNat, hasked]
    exact ⟨Nat.le_refl _, Nat.mod_eq_of_lt hfit⟩

end Request

theorem request_sizes {d d' : Detector} {ptr new n r : ℕ} {size : UInt32} {site : Site}
    (hs : request d ptr new n size site = some (r, d')) (hr : r ≠ 0) :
    d'.heap.size r = n ∧ (d'.info new).size = size := by
  obtain ⟨rfl, h, hm, ⟨hzero, -⟩ | ⟨-, hadd⟩⟩ := request_cases hs
  · exact absurd hzero hr
  obtain ⟨hnew, -, hheap, hinfo⟩ := addMemInfo_some hadd
  rcases Arena.malloc_cases hm with ⟨hzero, -⟩ | ⟨-, -, rfl⟩
  · exact absurd hzero hr
  · have hne : r ≠ new := by
      rintro rfl
      simp at hnew
    rw [hheap, hinfo]
    simp [Arena.hold, hne, Site.record]

/-- In every state, an allocation through the macros keeps the requested size exactly where it is
below `2 ^ 32`. -/
theorem request_kept_iff (req : Request) (d d' : Detector) (ptr new r : ℕ) (site : Site)
    (hcall : req.call d ptr new site = some (r, d')) (hr : r ≠ 0) :
    req.Kept r new d' ↔ req.bytes < 2 ^ 32 := by
  rw [req.call_eq_request] at hcall
  obtain ⟨hsize, hnoted⟩ := request_sizes hcall hr
  rw [← req.kept_iff]
  constructor
  · rintro ⟨hasked, hsaid⟩
    rw [hsize] at hasked
    rw [hnoted] at hsaid
    exact ⟨hasked, hsaid⟩
  · rintro ⟨hasked, hsaid⟩
    exact ⟨by rwa [hsize], by rwa [hnoted]⟩

theorem request_kept_calloc : ∃ d',
    (Request.calloc 65535 65537).call blankStart 8 9 (.ones 1 0 1) = some (8, d') ∧
      (Request.calloc 65535 65537).Kept 8 9 d' := by
  obtain ⟨d', hd⟩ : ∃ d',
      (Request.calloc 65535 65537).call blankStart 8 9 (.ones 1 0 1) = some (8, d') := ⟨_, rfl⟩
  exact ⟨d', hd, (request_kept_iff _ _ _ 8 9 8 _ hd (by decide)).mpr (by decide)⟩

theorem request_wraps :
    (∃ d', (Request.malloc 4294967297).call blankStart 8 9 (.ones 1 0 1) = some (8, d') ∧
      d'.heap.size 8 = 1 ∧ (d'.info 9).size = 1 ∧ ¬ (Request.malloc 4294967297).Kept 8 9 d') ∧
    ∃ d', (Request.calloc 65536 65536).call blankStart 8 9 (.ones 1 0 1) = some (8, d') ∧
      d'.heap.size 8 = 4294967296 ∧ (d'.info 9).size = 0 ∧
      ¬ (Request.calloc 65536 65536).Kept 8 9 d' := by
  refine ⟨⟨_, rfl, rfl, rfl, fun hk => ?_⟩, ⟨_, rfl, rfl, rfl, fun hk => ?_⟩⟩
  · exact absurd hk.noted (by decide)
  · exact absurd hk.noted (by decide)

end KernelHashtable.Leak
