import KernelHashtable.StringTable
import Mathlib.Data.List.Infix

/-!
# The command line of main.c

`main` reads its words in groups of three through a cursor on `argv`. Only the first word of a
group can ask for help, and a later group overwrites what an earlier one has set.
-/

namespace KernelHashtable.Main
open Strings

def matchesLoop (start : List UInt8) : List UInt8 → Bool
  | [] => start.headD 0 == 0
  | c :: string => if start.headD 0 = c then matchesLoop start.tail string else start.headD 0 == 0

/-- `matches`, with `start` for the parameter that the source calls a prefix. -/
def matchesPrefix (start string : CString) : Bool :=
  if start.chars.headD 0 = 0 then false else matchesLoop start.chars string.chars

/-- `-h` -/
def shortHelp : CString := ⟨[45, 104], by decide⟩

/-- `--help` -/
def longHelp : CString := ⟨[45, 45, 104, 101, 108, 112], by decide⟩

inductive Exit where
  | incompleteCommand
  | usage
  deriving DecidableEq

structure Config (F : Type) where
  bits : Int32
  density : F
  printFreqDensity : F
  deriving DecidableEq

structure Cursor where
  argc : ℤ
  argv : ℕ

abbrev Prog (α : Type) := ExceptT Exit Option α

def nextArg (c : Cursor) : Prog Cursor :=
  if c.argc - 1 ≤ 0 then throw .incompleteCommand else pure ⟨c.argc - 1, c.argv + 1⟩

def nextArgOk (c : Cursor) : Bool := decide (c.argc - 1 > 0)

section
variable {F : Type} (argv : List CString) (atoi : CString → Int32) (atof : CString → F)

def word (c : Cursor) : Prog CString := ExceptT.lift (argv[c.argv]?)

def readNext (set : CString → Config F → Config F) (c : Cursor) (cfg : Config F) :
    Prog (Cursor × Config F) :=
  if nextArgOk c then do
    let c ← nextArg c
    let w ← word argv c
    pure (c, set w cfg)
  else pure (c, cfg)

def turn (c : Cursor) (cfg : Config F) : Prog (Cursor × Config F) := do
  let c ← nextArg c
  let w ← word argv c
  if matchesPrefix w shortHelp || matchesPrefix w longHelp then throw .usage
  let (c, cfg) ← readNext argv (fun w cfg => { cfg with density := atof w }) c
    { cfg with bits := atoi w }
  readNext argv (fun w cfg => { cfg with printFreqDensity := atof w }) c cfg

def loop : ℕ → Cursor → Config F → Prog (Config F)
  | 0, _, _ => ExceptT.lift none
  | fuel + 1, c, cfg =>
    if c.argc > 1 then do
      let (c, cfg) ← turn argv atoi atof c cfg
      loop fuel c cfg
    else pure cfg

/-- `main` up to the call of `run_example_code`. `half` is the `float` 0.5. -/
def main (half : F) : Prog (Config F) :=
  loop argv atoi atof (argv.length + 1) ⟨argv.length, 0⟩ ⟨18, half, half⟩

end

theorem matchesLoop_eq {start string : List UInt8} (hs : 0 ∉ start) (hs' : 0 ∉ string) :
    matchesLoop start string = true ↔ start <+: string := by
  induction string generalizing start with
  | nil =>
    cases start with
    | nil => simp [matchesLoop]
    | cons b start =>
      have hb : b ≠ 0 := fun h => hs (by simp [h])
      simp [matchesLoop, hb]
  | cons c string ih =>
    have hc : c ≠ 0 := fun h => hs' (by simp [h])
    cases start with
    | nil => simp [matchesLoop, hc.symm]
    | cons b start =>
      have hb : b ≠ 0 := fun h => hs (by simp [h])
      have hrec : matchesLoop start string = true ↔ start <+: string :=
        ih (fun h => hs (by simp [h])) fun h => hs' (by simp [h])
      by_cases hbc : b = c
      · simp [matchesLoop, hbc, hrec]
      · simp [matchesLoop, hbc, hb, List.cons_prefix_cons]

theorem matchesPrefix_eq (start string : CString) : matchesPrefix start string = true ↔
    start.chars ≠ [] ∧ start.chars <+: string.chars := by
  rw [← matchesLoop_eq start.nonzero string.nonzero, matchesPrefix]
  obtain ⟨chars, hchars⟩ := start
  cases chars with
  | nil => simp
  | cons b chars =>
    have hb : b ≠ 0 := fun h => hchars (by simp [h])
    simp [hb]

def AsksForHelp (w : CString) : Prop :=
  w.chars ≠ [] ∧ (w.chars <+: shortHelp.chars ∨ w.chars <+: longHelp.chars)

instance : DecidablePred AsksForHelp := fun _ => inferInstanceAs (Decidable (_ ∧ _))

theorem asksForHelp_iff (w : CString) :
    (matchesPrefix w shortHelp || matchesPrefix w longHelp) = true ↔ AsksForHelp w := by
  rw [Bool.or_eq_true, matchesPrefix_eq, matchesPrefix_eq, ← and_or_left]
  rfl

def lastOf (r : ℕ) (words : List CString) : Option CString :=
  words[3 * ((words.length - 1 - r) / 3) + r]?

theorem lastOf_cons (r : ℕ) (b : CString) (words : List CString) :
    lastOf r (b :: words) = (lastOf r (words.drop 2)).or (b :: words)[r]? := by
  rw [lastOf, lastOf, List.length_cons, List.length_drop, List.getElem?_drop]
  by_cases hw : r + 2 < words.length
  · have hidx : 3 * ((words.length + 1 - 1 - r) / 3) + r =
        2 + (3 * ((words.length - 2 - 1 - r) / 3) + r) + 1 := by omega
    have hlt : 2 + (3 * ((words.length - 2 - 1 - r) / 3) + r) < words.length := by omega
    rw [hidx, List.getElem?_cons_succ, List.getElem?_eq_getElem hlt, Option.some_or]
  · have hidx : 3 * ((words.length + 1 - 1 - r) / 3) + r = r := by omega
    have hnone : words[2 + (3 * ((words.length - 2 - 1 - r) / 3) + r)]? = none :=
      List.getElem?_eq_none (by omega)
    rw [hidx, hnone, Option.none_or]

def HelpWanted (words : List CString) : Prop := ∃ i, ∃ w ∈ words[3 * i]?, AsksForHelp w

theorem helpWanted_cons (b : CString) (words : List CString) :
    HelpWanted (b :: words) ↔ AsksForHelp b ∨ HelpWanted (words.drop 2) := by
  have hnext : ∀ i, (b :: words)[3 * (i + 1)]? = (words.drop 2)[3 * i]? := by
    intro i
    rw [List.getElem?_drop, Nat.mul_succ, List.getElem?_cons_succ, Nat.add_comm]
  constructor
  · rintro ⟨i, w, hw, hhelp⟩
    cases i with
    | zero =>
      obtain rfl : b = w := by simpa using hw
      exact Or.inl hhelp
    | succ i => exact Or.inr ⟨i, w, hnext i ▸ hw, hhelp⟩
  · rintro (hhelp | ⟨i, w, hw, hhelp⟩)
    · exact ⟨0, b, by simp, hhelp⟩
    · exact ⟨i + 1, w, hnext i ▸ hw, hhelp⟩

structure Standing (argv : List CString) (c : Cursor) (words : List CString) : Prop where
  argc : c.argc = words.length + 1
  rest : argv.drop (c.argv + 1) = words

section
variable {F : Type} {argv words : List CString} {atoi : CString → Int32} {atof : CString → F}
  {c : Cursor} {w : CString}

theorem Standing.next (hs : Standing argv c (w :: words)) : ∃ c', nextArg c = pure c' ∧
    word argv c' = pure w ∧ Standing argv c' words := by
  have hargc : c.argc - 1 = words.length + 1 := by
    rw [hs.argc, List.length_cons]
    omega
  refine ⟨⟨c.argc - 1, c.argv + 1⟩, ?_, ?_, hargc, ?_⟩
  · rw [nextArg, if_neg (by omega)]
  · have hw : argv[c.argv + 1]? = some w := by
      rw [← List.head?_drop, hs.rest, List.head?_cons]
    rw [word, hw]
    rfl
  · rw [← List.tail_drop, hs.rest, List.tail_cons]

theorem Standing.nextArgOk_eq (hs : Standing argv c words) : nextArgOk c = !words.isEmpty := by
  cases words with
  | nil => simp [nextArgOk, hs.argc]
  | cons w words => simp [nextArgOk, hs.argc]

theorem Standing.readNext_eq (hs : Standing argv c words) (set : CString → Config F → Config F)
    (cfg : Config F) : ∃ c', readNext argv set c cfg =
        pure (c', (words.head?.map fun w => set w cfg).getD cfg) ∧
      Standing argv c' words.tail := by
  have hok := hs.nextArgOk_eq
  cases words with
  | nil => exact ⟨c, by rw [readNext, if_neg (by simp [hok])]; rfl, hs⟩
  | cons w words =>
    obtain ⟨c', hnext, hword, hs'⟩ := hs.next
    refine ⟨c', ?_, hs'⟩
    rw [readNext, if_pos (by simp [hok]), hnext, pure_bind, hword, pure_bind]
    rfl

theorem turn_help (hs : Standing argv c (w :: words)) (hw : AsksForHelp w) (cfg : Config F) :
    turn argv atoi atof c cfg = throw .usage := by
  obtain ⟨c', hnext, hword, -⟩ := hs.next
  have hhelp := (asksForHelp_iff w).mpr hw
  rw [turn, hnext, pure_bind, hword, pure_bind, if_pos hhelp]
  rfl

theorem Standing.turn_eq (hs : Standing argv c (w :: words)) (atoi : CString → Int32)
    (atof : CString → F) (hw : ¬ AsksForHelp w) (cfg : Config F) : ∃ c', turn argv atoi atof c cfg =
        pure (c', ⟨atoi w, (words[0]?.map atof).getD cfg.density,
          (words[1]?.map atof).getD cfg.printFreqDensity⟩) ∧
      Standing argv c' (words.drop 2) := by
  obtain ⟨c₁, hnext, hword, hs₁⟩ := hs.next
  have hhelp : ¬ (matchesPrefix w shortHelp || matchesPrefix w longHelp) = true :=
    fun h => hw ((asksForHelp_iff w).mp h)
  have hturn : turn argv atoi atof c cfg =
      readNext argv (fun w cfg => { cfg with density := atof w }) c₁ { cfg with bits := atoi w } >>=
        fun p => readNext argv (fun w cfg => { cfg with printFreqDensity := atof w }) p.1 p.2 := by
    rw [turn, hnext, pure_bind, hword, pure_bind, if_neg hhelp]
  obtain ⟨c₂, hdensity, hs₂⟩ := hs₁.readNext_eq (fun w cfg => { cfg with density := atof w })
    { cfg with bits := atoi w }
  rw [hturn, hdensity, pure_bind]
  obtain ⟨c₃, hfreq, hs₃⟩ := hs₂.readNext_eq (fun w cfg => { cfg with printFreqDensity := atof w })
    ((words.head?.map fun w' => ⟨atoi w, atof w', cfg.printFreqDensity⟩).getD
      { cfg with bits := atoi w })
  refine ⟨c₃, hfreq.trans ?_, by rwa [← List.drop_one, ← List.drop_one, List.drop_drop] at hs₃⟩
  match words with
  | [] => rfl
  | [_] => rfl
  | _ :: _ :: _ => rfl

def configured (atoi : CString → Int32) (atof : CString → F) (words : List CString)
    (cfg : Config F) : Config F where
  bits := ((lastOf 0 words).map atoi).getD cfg.bits
  density := ((lastOf 1 words).map atof).getD cfg.density
  printFreqDensity := ((lastOf 2 words).map atof).getD cfg.printFreqDensity

theorem getD_map_or {α β : Type} (o o' : Option α) (f : α → β) (b : β) :
    ((o.or o').map f).getD b = (o.map f).getD ((o'.map f).getD b) := by
  cases o <;> rfl

theorem configured_cons (cfg : Config F) : configured atoi atof (w :: words) cfg =
    configured atoi atof (words.drop 2) ⟨atoi w, (words[0]?.map atof).getD cfg.density,
      (words[1]?.map atof).getD cfg.printFreqDensity⟩ := by
  simp only [configured, lastOf_cons _ w words, getD_map_or]
  rfl

theorem Standing.loop_eq (hs : Standing argv c words) {fuel : ℕ} (hf : words.length < fuel)
    (cfg : Config F) :
    (HelpWanted words → loop argv atoi atof fuel c cfg = throw .usage) ∧
      (¬ HelpWanted words →
        loop argv atoi atof fuel c cfg = pure (configured atoi atof words cfg)) := by
  induction fuel generalizing c words cfg with
  | zero => exact absurd hf (Nat.not_lt_zero _)
  | succ fuel ih =>
    cases words with
    | nil =>
      have hstop : ¬ c.argc > 1 := by simp [hs.argc]
      rw [loop, if_neg hstop]
      refine ⟨?_, fun _ => rfl⟩
      rintro ⟨i, w, hw, -⟩
      simp at hw
    | cons w words =>
      have hgo : c.argc > 1 := by
        rw [hs.argc, List.length_cons]
        omega
      rw [loop, if_pos hgo, helpWanted_cons]
      by_cases hw : AsksForHelp w
      · rw [turn_help hs hw]
        exact ⟨fun _ => rfl, fun hno => absurd (Or.inl hw) hno⟩
      · obtain ⟨c', hturn, hs'⟩ := hs.turn_eq atoi atof hw cfg
        have hlen : (words.drop 2).length < fuel := by
          rw [List.length_drop]
          rw [List.length_cons] at hf
          omega
        rw [hturn, pure_bind, or_iff_right hw, configured_cons]
        exact ih hs' hlen _

end

/-- Whatever the command line, `main` has a meaning and never finds it incomplete: it shows the
usage if the first word of some group of three begins `-h` or `--help`, and is configured
by the last word at each place of a group otherwise. -/
theorem main_configured {F : Type} (argv : List CString) (atoi : CString → Int32)
    (atof : CString → F) (half : F) :
    (HelpWanted argv.tail → (main argv atoi atof half).run = some (.error .usage)) ∧
      (¬ HelpWanted argv.tail → (main argv atoi atof half).run =
        some (.ok ⟨((lastOf 0 argv.tail).map atoi).getD 18,
          ((lastOf 1 argv.tail).map atof).getD half,
          ((lastOf 2 argv.tail).map atof).getD half⟩)) := by
  cases argv with
  | nil =>
    refine ⟨?_, fun _ => rfl⟩
    rintro ⟨i, w, hw, -⟩
    simp at hw
  | cons name words =>
    have hs : Standing (name :: words) ⟨(name :: words).length, 0⟩ words := ⟨by simp, rfl⟩
    exact hs.loop_eq (by simp only [List.length_cons]; omega) ⟨18, half, half⟩

/-- The example of the usage text: no word is taken for an option, and the bits are what `atoi`
makes of `0.5`. -/
example : (main [⟨[97], by decide⟩, ⟨[45, 98], by decide⟩, ⟨[49, 48], by decide⟩,
    ⟨[45, 100], by decide⟩, ⟨[48, 46, 53], by decide⟩, ⟨[45, 112], by decide⟩,
    ⟨[48, 46, 49], by decide⟩] (fun w => Int32.ofNat w.strlen) CString.chars []).run =
      some (.ok ⟨3, [45, 112], [48, 46, 49]⟩) := by
  rfl

end KernelHashtable.Main
