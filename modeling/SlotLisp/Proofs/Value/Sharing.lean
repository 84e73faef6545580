import Mathlib.Tactic.MkIffOfInductiveProp
import SlotLisp.Store
import SlotLisp.Value.Equality
import SlotLisp.Proofs.Double.Comparison

/-!
# Equality under sharing

Two pairs with one mark are one cell, and equality takes a cell for equal to itself without a look
at what it holds. `Alike` compares throughout and knows of no cells. The two agree on values of one
heap (`LiesIn`) that hold no double that is not a number, so sharing a cell or copying it makes no
difference there (`equal_whatever_is_shared`). What a store places lies in such a heap
(`exists_liesIn_place`).
-/

namespace SlotLisp.Value

/-- Every pair of the value is a cell of the heap: its mark alone tells what it holds. -/
def LiesIn (cells : List (Value × Value)) : Value → Prop
  | pair (some m) a d => cells[m]? = some (a, d) ∧ a.LiesIn cells ∧ d.LiesIn cells
  | pair none _ _ => False
  | _ => True

/-- The value is made of cells of the heap and, above them, of pairs that are in no store yet. -/
def MadeFrom (cells : List (Value × Value)) : Value → Prop
  | pair none a d => a.MadeFrom cells ∧ d.MadeFrom cells
  | v => v.LiesIn cells

/-- The comparison of two values down to the last atom, whatever cells they are made of. -/
@[mk_iff]
inductive Alike : Value → Value → Prop
  | nil : Alike nil nil
  | bool (b : Bool) : Alike (bool b) (bool b)
  | int (n : Int64) : Alike (int n) (int n)
  | float {x y : Float} (equal : (x == y) = true) : Alike (float x) (float y)
  | char (c : Char) : Alike (char c) (char c)
  | string (s : String) : Alike (string s) (string s)
  | symbol (name : String) : Alike (symbol name) (symbol name)
  | pair {m m' : Option Nat} {a a' d d' : Value} (cars : Alike a a') (cdrs : Alike d d') :
      Alike (pair m a d) (pair m' a' d')
  | closure (m : Nat) {params params' body body' : Value} {scope scope' : ScopeId} :
      Alike (closure m params body scope) (closure m params' body' scope')
  | native {f g : Native} (sameName : f.id = g.id) : Alike (native f) (native g)

/-- No double in the value, looked for in pairs only, is not a number. -/
def NanFree : Value → Prop
  | float x => x.isNaN = false
  | pair _ a d => a.NanFree ∧ d.NanFree
  | _ => True

/-- The value with a copy of each cell for every time it occurs. -/
def unshared : Value → Value
  | pair _ a d => cons a.unshared d.unshared
  | v => v

variable {cells : List (Value × Value)} {a b c : Value}

/-! ## Plain comparison -/

theorem Alike.symm (h : a.Alike b) : b.Alike a := by
  induction h with
  | float equal => exact .float (Double.beq_symm equal)
  | pair _ _ ihCars ihCdrs => exact .pair ihCars ihCdrs
  | native sameName => exact .native sameName.symm
  | _ => constructor

theorem Alike.trans (h : a.Alike b) (h' : b.Alike c) : a.Alike c := by
  induction h generalizing c with
  | float equal =>
    cases h' with
    | float equal' => exact .float (Double.beq_trans equal equal')
  | pair _ _ ihCars ihCdrs =>
    cases h' with
    | pair cars cdrs => exact .pair (ihCars cars) (ihCdrs cdrs)
  | closure =>
    cases h'
    exact .closure _
  | native sameName =>
    cases h' with
    | native sameName' => exact .native (sameName.trans sameName')
  | _ => exact h'

theorem alike_self (h : a.NanFree) : a.Alike a := by
  induction a with
  | float x => exact .float (Double.beq_self_iff.2 h)
  | pair m a d ihCar ihCdr => exact .pair (ihCar h.1) (ihCdr h.2)
  | native f => exact .native rfl
  | _ => constructor

theorem alike_pair_iff {m m' : Option Nat} {a a' d d' : Value} :
    (pair m a d).Alike (pair m' a' d') ↔ a.Alike a' ∧ d.Alike d' := by
  constructor
  · intro h
    cases h with
    | pair cars cdrs => exact ⟨cars, cdrs⟩
  · rintro ⟨cars, cdrs⟩
    exact .pair cars cdrs

theorem alike_unshared_iff : a.unshared.Alike b.unshared ↔ a.Alike b := by
  induction a generalizing b with
  | pair m a d ihCar ihCdr =>
    cases b with
    | pair m' a' d' => rw [unshared, unshared, alike_pair_iff, alike_pair_iff, ihCar, ihCdr]
    | _ => constructor <;> intro h <;> cases h
  | _ =>
    cases b with
    | pair => constructor <;> intro h <;> cases h
    | _ => rfl

theorem nanFree_unshared_iff : a.unshared.NanFree ↔ a.NanFree := by
  induction a with
  | pair m a d ihCar ihCdr => exact and_congr ihCar ihCdr
  | _ => rfl

/-! ## Steps of the comparison -/

theorem equal_pair_iff {m m' : Option Nat} {a a' d d' : Value} :
    (pair m a d).equal (pair m' a' d') = true ↔
      sameMark m m' = true ∨ a.equal a' = true ∧ d.equal d' = true := by
  rw [equal, Bool.or_eq_true, Bool.and_eq_true]

/-- Atoms are compared as if nothing were shared. -/
theorem equal_atom_iff (hatom : ∀ m x y, a ≠ pair m x y) : a.equal b = true ↔ a.Alike b := by
  cases a with
  | pair m x y => exact absurd rfl (hatom m x y)
  | _ => cases b <;> rw [alike_iff] <;> simp [equal] <;> exact eq_comm

theorem equal_of_alike (h : a.Alike b) : a.equal b = true := by
  induction h with
  | pair _ _ ihCars ihCdrs => exact equal_pair_iff.2 (.inr ⟨ihCars, ihCdrs⟩)
  | _ => exact (equal_atom_iff (by simp)).2 (by constructor <;> assumption)

/-! ## One heap -/

theorem LiesIn.parts {m : Option Nat} {a d : Value} (h : (pair m a d).LiesIn cells) :
    a.LiesIn cells ∧ d.LiesIn cells := by
  cases m with
  | none => exact h.elim
  | some m => exact h.2

theorem LiesIn.equal_self {m : Option Nat} {a d : Value} (h : (pair m a d).LiesIn cells) :
    (pair m a d).equal (pair m a d) = true := by
  cases m with
  | none => exact h.elim
  | some m => exact equal_self_of_mark m a d

/-- One mark stands for one cell. -/
theorem LiesIn.eq_of_sameMark {m m' : Option Nat} {a a' d d' : Value}
    (h : (pair m a d).LiesIn cells) (h' : (pair m' a' d').LiesIn cells)
    (hsame : sameMark m m' = true) : pair m a d = pair m' a' d' := by
  obtain ⟨k, rfl, rfl⟩ := sameMark_eq_true_iff.1 hsame
  obtain ⟨rfl, rfl⟩ := Prod.mk.inj (Option.some.inj (h.1.symm.trans h'.1))
  rfl

theorem LiesIn.append (h : a.LiesIn cells) (more : List (Value × Value)) :
    a.LiesIn (cells ++ more) := by
  induction a with
  | pair m a d ihCar ihCdr =>
    cases m with
    | none => exact h.elim
    | some m =>
      refine ⟨?_, ihCar h.2.1, ihCdr h.2.2⟩
      rw [List.getElem?_append_left (List.getElem?_eq_some_iff.1 h.1).1]
      exact h.1
  | _ => trivial

theorem MadeFrom.append (h : a.MadeFrom cells) (more : List (Value × Value)) :
    a.MadeFrom (cells ++ more) := by
  induction a with
  | pair m a d ihCar ihCdr =>
    cases m with
    | none => exact ⟨ihCar h.1, ihCdr h.2⟩
    | some m => exact LiesIn.append h more
  | _ => trivial

/-- Cells put in front of a value, each for one element, the first element last. -/
theorem exists_liesIn_foldl {elements : List Value} (helements : ∀ x ∈ elements, x.LiesIn cells)
    (ha : a.LiesIn cells) :
    ∃ more w, elements.foldl (fun (rest, mark) x => (pair (some mark) x rest, mark + 1))
        (a, cells.length) = (w, (cells ++ more).length) ∧ w.LiesIn (cells ++ more) := by
  induction elements generalizing cells a with
  | nil => exact ⟨[], a, by simp, by simpa using ha⟩
  | cons x elements ih =>
    rw [List.forall_mem_cons] at helements
    have hcell : (pair (some cells.length) x a).LiesIn (cells ++ [(x, a)]) :=
      ⟨by simp, helements.1.append _, ha.append _⟩
    obtain ⟨more, w, hfold, hw⟩ := ih (fun y hy => (helements.2 y hy).append _) hcell
    rw [List.length_append, List.append_assoc] at hfold
    rw [List.append_assoc] at hw
    exact ⟨(x, a) :: more, w, hfold, hw⟩

/-- Placing makes every pair a cell of its own. -/
theorem exists_liesIn_placeFrom {elements : List Value}
    (helements : ∀ x ∈ elements, x.LiesIn cells) (ha : a.MadeFrom cells) :
    ∃ more w, Store.placeFrom cells.length elements a = (w, (cells ++ more).length) ∧
      w.LiesIn (cells ++ more) := by
  induction a generalizing cells elements with
  | pair m a d ihCar ihCdr =>
    cases m with
    | none =>
      have hnone : ∀ x ∈ ([] : List Value), x.LiesIn cells := by simp
      obtain ⟨more, w, hcar, hw⟩ := ihCar hnone ha.1
      have helements' : ∀ x ∈ w :: elements, x.LiesIn (cells ++ more) := by
        rw [List.forall_mem_cons]
        exact ⟨hw, fun x hx => (helements x hx).append more⟩
      obtain ⟨more', w', hcdr, hw'⟩ := ihCdr helements' (ha.2.append more)
      refine ⟨more ++ more', w', ?_, by rwa [← List.append_assoc]⟩
      rw [Store.placeFrom, hcar, ← List.append_assoc]
      exact hcdr
    | some m => exact exists_liesIn_foldl helements ha
  | _ => exact exists_liesIn_foldl helements ha

/-- A store that has given out no marks but those of the heap places values in that heap. -/
theorem exists_liesIn_place {st : Store} (hmarks : st.marks = cells.length)
    (ha : a.MadeFrom cells) :
    ∃ more, (st.place a).1.LiesIn (cells ++ more) ∧
      (st.place a).2.marks = (cells ++ more).length := by
  have hnone : ∀ x ∈ ([] : List Value), x.LiesIn cells := by simp
  obtain ⟨more, w, hplace, hw⟩ := exists_liesIn_placeFrom hnone ha
  refine ⟨more, ?_⟩
  rw [Store.place, hmarks, hplace]
  exact ⟨hw, rfl⟩

/-! ## Laws of equality -/

theorem typeName_eq_of_equal (h : a.equal b = true) : a.typeName = b.typeName := by
  cases a <;> cases b <;> first | rfl | cases h

theorem equal_symm (h : a.equal b = true) : b.equal a = true := by
  induction a generalizing b with
  | pair m a d ihCar ihCdr =>
    cases b with
    | pair m' a' d' =>
      rw [equal_pair_iff] at h ⊢
      refine h.imp (fun hsame => ?_) (And.imp ihCar ihCdr)
      obtain ⟨k, rfl, rfl⟩ := sameMark_eq_true_iff.1 hsame
      exact hsame
    | _ => cases h
  | _ => exact equal_of_alike ((equal_atom_iff (by simp)).1 h).symm

theorem equal_trans (ha : a.LiesIn cells) (hb : b.LiesIn cells) (hc : c.LiesIn cells)
    (hab : a.equal b = true) (hbc : b.equal c = true) : a.equal c = true := by
  induction a generalizing b c with
  | pair m a d ihCar ihCdr =>
    cases b with
    | pair m' a' d' =>
      cases c with
      | pair m'' a'' d'' =>
        -- One step over a shared cell leaves the other step to take.
        rcases equal_pair_iff.1 hab with hsame | ⟨hcars, hcdrs⟩
        · rwa [ha.eq_of_sameMark hb hsame]
        rcases equal_pair_iff.1 hbc with hsame | ⟨hcars', hcdrs'⟩
        · rwa [← hb.eq_of_sameMark hc hsame]
        have hcar := ihCar ha.parts.1 hb.parts.1 hc.parts.1 hcars hcars'
        have hcdr := ihCdr ha.parts.2 hb.parts.2 hc.parts.2 hcdrs hcdrs'
        exact equal_pair_iff.2 (.inr ⟨hcar, hcdr⟩)
      | _ => cases hbc
    | _ => cases hab
  | _ =>
    have h := (equal_atom_iff (by simp)).1 hab
    have hatom : ∀ m x y, b ≠ pair m x y := by
      rintro m x y rfl
      cases h
    exact equal_of_alike (h.trans ((equal_atom_iff hatom).1 hbc))

theorem equal_iff_alike (ha : a.LiesIn cells) (hb : b.LiesIn cells) (hnan : a.NanFree) :
    a.equal b = true ↔ a.Alike b := by
  refine ⟨fun h => ?_, equal_of_alike⟩
  induction a generalizing b with
  | pair m a d ihCar ihCdr =>
    cases b with
    | pair m' a' d' =>
      rcases equal_pair_iff.1 h with hsame | ⟨hcars, hcdrs⟩
      · rw [← ha.eq_of_sameMark hb hsame]
        exact alike_self hnan
      · exact .pair (ihCar ha.parts.1 hb.parts.1 hnan.1 hcars)
          (ihCdr ha.parts.2 hb.parts.2 hnan.2 hcdrs)
    | _ => cases h
  | _ => exact (equal_atom_iff (by simp)).1 h

-- What is not a number is alike to nothing, yet a cell that holds it is that cell.
example :
    let x := float (Float.ofBits 0x7ff8000000000000)
    (pair (some 0) x nil).equal (pair (some 0) x nil) = true ∧
      (pair (some 0) x nil).equal (pair (some 1) x nil) = false := by decide

/-- Without doubles that are not numbers it makes no difference which cells are shared. -/
theorem equal_eq_of_unshared {cells' : List (Value × Value)} {a' b' : Value}
    (ha : a.LiesIn cells) (hb : b.LiesIn cells) (ha' : a'.LiesIn cells') (hb' : b'.LiesIn cells')
    (hsameA : a'.unshared = a.unshared) (hsameB : b'.unshared = b.unshared) (hnan : a.NanFree) :
    a'.equal b' = a.equal b := by
  have hnan' : a'.NanFree := by
    rw [← nanFree_unshared_iff, hsameA]
    exact nanFree_unshared_iff.2 hnan
  rw [Bool.eq_iff_iff, equal_iff_alike ha' hb' hnan', equal_iff_alike ha hb hnan,
    ← alike_unshared_iff, hsameA, hsameB, alike_unshared_iff]

/-- Over one heap equality is symmetric and transitive, a pair equals itself, and values of
different types differ. Of two values one of which holds no double that is not a number, it finds
out whether they are alike, so it gives the same answer wherever else they share cells or do not. -/
theorem equal_whatever_is_shared (ha : a.LiesIn cells) (hb : b.LiesIn cells)
    (hc : c.LiesIn cells) :
    (a.equal b = b.equal a) ∧
    (a.equal b = true → b.equal c = true → a.equal c = true) ∧
    (∀ m x y, a = pair m x y → a.equal a = true) ∧
    (a.typeName ≠ b.typeName → a.equal b = false) ∧
    (a.NanFree →
      (a.equal b = true ↔ a.Alike b) ∧
      ∀ (cells' : List (Value × Value)) (a' b' : Value), a'.LiesIn cells' → b'.LiesIn cells' →
        a'.unshared = a.unshared → b'.unshared = b.unshared → a'.equal b' = a.equal b) := by
  refine ⟨Bool.eq_iff_iff.2 ⟨equal_symm, equal_symm⟩, equal_trans ha hb hc, ?_, fun htypes => ?_,
    fun hnan => ⟨equal_iff_alike ha hb hnan, fun cells' a' b' ha' hb' hsameA hsameB =>
      equal_eq_of_unshared ha hb ha' hb' hsameA hsameB hnan⟩⟩
  · rintro m x y rfl
    exact ha.equal_self
  · rw [Bool.eq_false_iff]
    exact fun hequal => htypes (typeName_eq_of_equal hequal)

theorem equal_of_one_cell_and_its_copy :
    let x := pair (some 0) (int 1) nil
    let y := pair (some 1) (int 1) nil
    let cells := [(int 1, nil), (int 1, nil), (x, x), (x, y)]
    (pair (some 2) x x).LiesIn cells ∧ (pair (some 3) x y).LiesIn cells ∧
      (pair (some 2) x x).NanFree ∧ (pair (some 2) x x).equal (pair (some 3) x y) = true := by
  intro x y cells
  have hshared : (pair (some 2) x x).LiesIn cells := by simp [LiesIn, x, cells]
  have hcopied : (pair (some 3) x y).LiesIn cells := by simp [LiesIn, x, y, cells]
  have hnan : (pair (some 2) x x).NanFree := by simp [NanFree, x]
  have halike : (pair (some 2) x x).Alike (pair (some 3) x y) :=
    .pair (.pair (.int 1) .nil) (.pair (.int 1) .nil)
  obtain ⟨-, -, -, -, hplain⟩ := equal_whatever_is_shared hshared hcopied hcopied
  exact ⟨hshared, hcopied, hnan, (hplain hnan).1.2 halike⟩

end SlotLisp.Value
