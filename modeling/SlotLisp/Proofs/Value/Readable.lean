import SlotLisp.Value.Equality
import SlotLisp.Value.Printer
import SlotLisp.Proofs.Double.Bits
import SlotLisp.Proofs.Reader.Lexemes
import SlotLisp.Proofs.Value.Parts

/-!
# Readable values

What the written form of a value can hold is decided at its leaves: closures and native functions
have no literal, a quote would end the string it stands in, a name has to read as one. Doubles are
kept apart, because all of them are written with characters the reader takes, but only a plain one
comes back: `Value.Legible F` leaves them to `F`, `Value.Readable` asks for plain ones.
-/

namespace SlotLisp

/-- Finite, with the sign bit clear, and below `10 ^ 16`. -/
def Double.IsPlain (x : Float) : Prop :=
  x.isFinite = true ∧ x.toBits.toNat < signBit ∧ x < 1e16

theorem Double.isPlain_iff {x : Float} : IsPlain x ↔ x.toBits.toNat < infinityBits ∧ x < 1e16 := by
  unfold IsPlain
  constructor
  · intro h
    obtain ⟨hfinite, hsign, hlt⟩ := h
    exact ⟨(isFinite_iff hsign).1 hfinite, hlt⟩
  · intro h
    obtain ⟨hfinite, hlt⟩ := h
    have hsign := lt_signBit hfinite
    exact ⟨(isFinite_iff hsign).2 hfinite, hsign, hlt⟩

/-- A letter with letters, digits and any of `+-*/<>=!?_` behind it, or nothing but `+-*/<>=`. -/
def IsName (name : List Char) : Prop :=
  (∃ c cs, name = c :: cs ∧ c.isAlpha = true ∧
    ∀ d ∈ cs, d.isAlphanum = true ∨ d ∈ "+-*/<>=!?_".toList) ∨
  (name ≠ [] ∧ ∀ c ∈ name, c ∈ "+-*/<>=".toList)

theorem Reader.isSymbolChar_iff {c : Char} :
    isSymbolChar c = true ↔ c.isAlphanum = true ∨ c ∈ "+-*/<>=!?_".toList := by
  have hsplit : "+-*/<>=!?_".toList = "+-*/<>=".toList ++ "!?_".toList := by decide
  simp only [isSymbolChar, Bool.or_eq_true, isOperatorChar, List.contains_iff_mem, hsplit,
    List.mem_append, or_assoc]

/-- The names are those that the reader takes for one, to their last character. -/
theorem isName_iff {name : List Char} :
    IsName name ↔
      Reader.isSymbolName name = true ∧ ∀ c ∈ name, Reader.isSymbolChar c = true := by
  have hoperator : ∀ c, Reader.isOperatorChar c = true → Reader.isSymbolChar c = true := by
    intro c hc
    simp [Reader.isSymbolChar, hc]
  constructor
  · intro h
    rcases h with ⟨c, cs, rfl, hc, hcs⟩ | ⟨hne, hall⟩
    · refine ⟨by simp [Reader.isSymbolName, hc], ?_⟩
      rw [List.forall_mem_cons]
      exact ⟨by simp [Reader.isSymbolChar, Char.isAlphanum, hc],
        fun d hd => Reader.isSymbolChar_iff.2 (hcs d hd)⟩
    · have hall : ∀ c ∈ name, Reader.isOperatorChar c = true :=
        fun c hc => Reader.isOperatorChar_iff.2 (hall c hc)
      obtain ⟨c, cs, rfl⟩ := List.exists_cons_of_ne_nil hne
      refine ⟨?_, fun d hd => hoperator d (hall d hd)⟩
      rw [Reader.isSymbolName, List.all_eq_true.2 hall, Bool.or_true]
  · intro h
    obtain ⟨hname, hall⟩ := h
    cases name with
    | nil => cases hname
    | cons c cs =>
      rw [Reader.isSymbolName, Bool.or_eq_true, List.all_eq_true] at hname
      rcases hname with hc | hoperators
      · exact .inl ⟨c, cs, rfl, hc,
          fun d hd => Reader.isSymbolChar_iff.1 (hall d (List.mem_cons_of_mem c hd))⟩
      · exact .inr ⟨List.cons_ne_nil c cs,
          fun d hd => Reader.isOperatorChar_iff.1 (hoperators d hd)⟩

instance (name : List Char) : Decidable (IsName name) :=
  decidable_of_iff (Reader.isSymbolName name = true ∧ name.all Reader.isSymbolChar = true)
    (by rw [List.all_eq_true, isName_iff])

namespace Value

/-- Made up of lists and of atoms that have a literal, with doubles as `F` says. -/
def Legible (F : Float → Prop) : Value → Prop
  | nil | bool _ | char _ => True
  | int n => 0 ≤ n.toInt
  | float x => F x
  | string s => '"' ∉ s.toList
  | symbol name => IsName name.toList
  | pair _ a d => a.Legible F ∧ d.Legible F
  | closure .. | native _ => False

/-- Made up of lists and of atoms that their literal leads back to. -/
def Readable (v : Value) : Prop := v.Legible Double.IsPlain

/-- Legible, whatever its doubles are. -/
def Spelled (v : Value) : Prop := v.Legible fun _ => True

theorem Legible.mono {F G : Float → Prop} (hFG : ∀ x, F x → G x) {v : Value} (h : v.Legible F) :
    v.Legible G := by
  induction v with
  | float x => exact hFG x h
  | pair _ a d iha ihd => exact ⟨iha h.1, ihd h.2⟩
  | _ => exact h

theorem Readable.spelled {v : Value} (h : v.Readable) : v.Spelled :=
  Legible.mono (fun _ _ => trivial) h

/-- Doubles are the only atoms that are legible without being readable. -/
theorem readable_or_double {v : Value} (hatom : v.IsAtom) (hv : v.Spelled) :
    v.Readable ∨ ∃ x, v = float x ∧ ¬ Double.IsPlain x := by
  cases v with
  | float x =>
    by_cases hx : Double.IsPlain x
    · exact .inl hx
    · exact .inr ⟨x, rfl, hx⟩
  | pair => exact hatom.elim
  | _ => exact .inl hv

/-- How many lists stand inside each other. -/
def nesting : Value → Nat
  | pair _ a d => max (a.nesting + 1) d.nesting
  | _ => 0

/-- A chain of pairs nests one level deeper than the deepest of its elements. -/
theorem nesting_eq_elements (mark : Option Nat) (a d : Value) :
    (pair mark a d).nesting = ((pair mark a d).elements.map nesting).foldr max 0 + 1 := by
  induction d generalizing mark a with
  | pair mark' a' d' _ ih =>
    rw [nesting, ih, elements_pair mark a, List.map_cons, List.foldr_cons]
    omega
  | _ => simp [nesting, elements, passElements]

/-- None of its pairs is in a store. -/
def Unmarked : Value → Prop
  | pair mark a d => mark = none ∧ a.Unmarked ∧ d.Unmarked
  | _ => True

theorem equal_cons (a d : Value) (mark : Option Nat) (a' d' : Value) :
    equal (cons a d) (pair mark a' d') = (equal a a' && equal d d') := by
  rw [equal]
  rfl

/-- Equality keeps what is legible and how deep it nests. -/
theorem spelled_of_equal {w v : Value} (hw : w.Unmarked) (h : w.equal v = true) (hs : w.Spelled) :
    v.Spelled ∧ v.nesting = w.nesting := by
  induction w generalizing v with
  | pair mark a d iha ihd =>
    obtain ⟨rfl, ha, hd⟩ := hw
    cases v with
    | pair mark' a' d' =>
      rw [equal_cons, Bool.and_eq_true] at h
      obtain ⟨hsa, hna⟩ := iha ha h.1 hs.1
      obtain ⟨hsd, hnd⟩ := ihd hd h.2 hs.2
      exact ⟨⟨hsa, hsd⟩, by rw [nesting, nesting, hna, hnd]⟩
    | _ => cases h
  | closure => cases hs
  | native => cases hs
  | nil =>
    cases v with
    | nil => exact ⟨hs, rfl⟩
    | _ => cases h
  | float x =>
    cases v with
    | float y => exact ⟨trivial, rfl⟩
    | _ => cases h
  | _ =>
    -- Only an atom of the same content is equal to one of these.
    cases v <;> first
      | cases h
      | obtain rfl := eq_of_beq h
        exact ⟨hs, rfl⟩

/-! ## The written form as a list of characters -/

mutual

/-- The characters of the written form. -/
def chars : Value → List Char
  | pair _ a d => '(' :: chars a ++ restChars d
  | v => v.atomText.toList

/-- The characters of a list behind an element. -/
def restChars : Value → List Char
  | nil => [')']
  | pair _ a d => ' ' :: chars a ++ restChars d
  | v => ' ' :: '.' :: ' ' :: v.atomText.toList ++ [')']

end

theorem toList_write (v : Value) :
    (∀ out : String, (v.write out).toList = out.toList ++ v.chars) ∧
      ∀ out : String, (v.writeRest out).toList = out.toList ++ v.restChars := by
  induction v with
  | pair mark a d iha ihd =>
    constructor
    · intro out
      rw [write, ihd.2, iha.1, chars]
      simp
    · intro out
      rw [writeRest, ihd.2, iha.1, restChars]
      simp
  | _ => constructor <;> intro out <;> simp [write, writeRest, chars, restChars]

theorem toList_text (v : Value) : v.text.toList = v.chars := (toList_write v).1 ""

end Value

end SlotLisp
