import Mathlib
import SlotLisp.Proofs.Builtin.Failures

/-!
# Integers are computed with exactly

Arithmetic on integers goes from left to right and checks each result, so that it comes to the exact
one or is refused: it succeeds when all results on the way fit into a word (`scanl`). Comparisons
look at neighbours only, which says the same as looking at all pairs, because each of the five
relations is transitive. They look at the types of all operands before they compare any.
-/

namespace SlotLisp

open Outcome Integer

/-! ## Folds -/

namespace Arithmetic

variable {op : Arithmetic} {f : Int → Int → Int} {m n k start : Int64} {ns : List Int64}

/-- On words the operation is `f` where the result is a word, and nothing elsewhere. -/
def Checks (op : Arithmetic) (f : Int → Int → Int) : Prop :=
  ∀ a b, op.onInts a b = ofInt? (f a.toInt b.toInt)

theorem sum_checks : sum.Checks (· + ·) := fun _ _ => rfl

theorem difference_checks : difference.Checks (· - ·) := fun _ _ => rfl

theorem product_checks : product.Checks (· * ·) := fun _ _ => rfl

theorem combine_of_some (h : op.onInts m n = some k) :
    op.combine (.int m) (.int n) = .ok (.int k) := by
  simp only [combine, Number.ofValue, bind, Except.bind, h]

theorem combine_of_none (h : op.onInts m n = none) :
    op.combine (.int m) (.int n) = fail (.overflow op.name) := by
  simp only [combine, Number.ofValue, bind, Except.bind, h]

theorem fold_of_ok {acc x : Number} {operands : List Value}
    (h : operands.foldlM op.combine acc = .ok x) : op.fold acc operands = .ok x.toValue := by
  rw [fold, h]
  rfl

theorem fold_of_fail {acc : Number} {operands : List Value} {p : Problem}
    (h : operands.foldlM op.combine acc = fail p) : op.fold acc operands = fail p := by
  rw [fold, h]
  rfl

/-- While all results are words, the exact ones are held. -/
theorem foldlM_ints (h : op.Checks f)
    (hfits : ∀ r ∈ (ns.map Int64.toInt).scanl f start.toInt, InRange r) :
    ∃ n : Int64, n.toInt = (ns.map Int64.toInt).foldl f start.toInt ∧
      (ns.map Value.int).foldlM op.combine (.int start) = .ok (.int n) := by
  induction ns generalizing start with
  | nil => exact ⟨start, rfl, rfl⟩
  | cons n ns ih =>
    rw [List.map_cons, List.scanl_cons, List.forall_mem_cons] at hfits
    -- The first result behind the start is held by the rest of the fold, which starts from it.
    have hnext : InRange (f start.toInt n.toInt) := hfits.2 _ (by cases ns <;> simp)
    obtain ⟨next, hsome⟩ := Option.ne_none_iff_exists'.1 (mt ofInt?_eq_none_iff.1 (not_not.2 hnext))
    have hvalue := ofInt?_eq_some_iff.1 hsome
    rw [← hvalue] at hfits
    obtain ⟨k, hk, hrun⟩ := ih hfits.2
    refine ⟨k, ?_, ?_⟩
    · rw [hk, hvalue, List.map_cons, List.foldl_cons]
    · rw [List.map_cons, List.foldlM_cons, combine_of_some ((h start n).trans hsome)]
      exact hrun

/-- The first result that is no word ends the fold. -/
theorem foldlM_ints_of_overflow (h : op.Checks f)
    (hover : ¬ ∀ r ∈ (ns.map Int64.toInt).scanl f start.toInt, InRange r) :
    (ns.map Value.int).foldlM op.combine (.int start) = fail (.overflow op.name) := by
  induction ns generalizing start with
  | nil => exact absurd (by simpa using inRange_toInt start) hover
  | cons n ns ih =>
    rw [List.map_cons, List.scanl_cons, List.forall_mem_cons] at hover
    rw [List.map_cons, List.foldlM_cons]
    cases hnext : op.onInts start n with
    | none =>
      rw [combine_of_none hnext]
      rfl
    | some next =>
      have hvalue := ofInt?_eq_some_iff.1 ((h start n).symm.trans hnext)
      rw [← hvalue] at hover
      rw [combine_of_some hnext]
      exact ih fun hrest => hover ⟨inRange_toInt start, hrest⟩

/-! ## Arithmetic -/

/-- The exact result if all results on the way fit into a word, and an error otherwise. -/
inductive ExactOrRefused (results : List Int) (exact : Int) : Outcome Value → Prop
  | exact {n : Int64} (fits : ∀ r ∈ results, InRange r) (value : n.toInt = exact) :
      ExactOrRefused results exact (.ok (.int n))
  | refused {e : Error} (overflows : ¬ ∀ r ∈ results, InRange r) (kind : e.kind = .evaluation) :
      ExactOrRefused results exact (.error e)

theorem exactOrRefused_fold (h : op.Checks f) (start : Int64) (ns : List Int64) :
    ExactOrRefused ((ns.map Int64.toInt).scanl f start.toInt)
      ((ns.map Int64.toInt).foldl f start.toInt) (op.fold (.int start) (ns.map .int)) := by
  by_cases hfits : ∀ r ∈ (ns.map Int64.toInt).scanl f start.toInt, InRange r
  · obtain ⟨n, hn, hrun⟩ := foldlM_ints h hfits
    rw [fold_of_ok hrun]
    exact .exact hfits hn
  · rw [fold_of_fail (foldlM_ints_of_overflow h hfits)]
    exact .refused hfits rfl

theorem exactOrRefused_negate (n : Int64) :
    ExactOrRefused [-n.toInt] (-n.toInt) (negate (.int n)) := by
  simp only [negate, Number.ofValue, bind, Except.bind]
  cases hneg : neg? n with
  | none => exact .refused (by simpa using ofInt?_eq_none_iff.1 hneg) rfl
  | some k =>
    have hk := ofInt?_eq_some_iff.1 hneg
    exact .exact (by simpa [← hk] using inRange_toInt k) hk

end Arithmetic

namespace Builtin

/-- What arithmetic means for integers of any size. -/
def exactResult : Builtin → List Int → Int
  | add, ns => ns.sum
  | mul, ns => ns.prod
  | sub, [n] => -n
  | sub, n :: ns => n - ns.sum
  | _, _ => 0

/-- What the fold holds from left to right, the start included. -/
def heldResults : Builtin → List Int → List Int
  | add, ns => ns.scanl (· + ·) 0
  | mul, ns => ns.scanl (· * ·) 1
  | sub, n :: ns => ns.scanl (· - ·) n
  | _, _ => []

/-- The results on the way from left to right. A difference of one operand is its negation. -/
def partialResults : Builtin → List Int → List Int
  | sub, [n] => [-n]
  | op, ns => op.heldResults ns

theorem foldl_sub (n : Int) (ns : List Int) : ns.foldl (· - ·) n = n - ns.sum := by
  induction ns generalizing n with
  | nil => simp
  | cons m ns ih => rw [List.foldl_cons, ih, List.sum_cons, Int.sub_sub]

theorem exactOrRefused_run {op : Builtin} (hop : op ∈ [add, sub, mul]) (ns : List Int64)
    (hcount : op.arity.Accepts ns.length) :
    Arithmetic.ExactOrRefused (op.partialResults (ns.map Int64.toInt))
      (op.exactResult (ns.map Int64.toInt)) (op.run (ns.map .int)) := by
  rw [run_of_accepts (by simpa using hcount)]
  simp only [List.mem_cons, List.not_mem_nil, or_false] at hop
  obtain rfl | rfl | rfl := hop
  · rw [exactResult, List.sum_eq_foldl]
    exact Arithmetic.exactOrRefused_fold Arithmetic.sum_checks 0 ns
  · rcases ns with _ | ⟨n, _ | ⟨m, ns⟩⟩
    · exact absurd hcount (Nat.not_succ_le_zero 0)
    · exact Arithmetic.exactOrRefused_negate n
    · have h := Arithmetic.exactOrRefused_fold Arithmetic.difference_checks n (m :: ns)
      rw [foldl_sub] at h
      exact h
  · rw [exactResult, List.prod_eq_foldl]
    exact Arithmetic.exactOrRefused_fold Arithmetic.product_checks 1 ns

theorem accepts_of_run_eq_ok {op : Builtin} {args : List Value} {v : Value}
    (h : op.run args = .ok v) : op.arity.Accepts args.length := by
  rw [run] at h
  split at h
  · cases h
  · rename_i hcount
    exact Arity.violated?_eq_none_iff.1 hcount

theorem exactResult_eq_of_perm {op : Builtin} (hop : op ∈ [add, mul]) {ms ns : List Int}
    (h : ms.Perm ns) : op.exactResult ms = op.exactResult ns := by
  simp only [List.mem_cons, List.not_mem_nil, or_false] at hop
  obtain rfl | rfl := hop
  · exact h.sum_eq
  · exact h.prod_eq

/-- One order may be refused where another is not, but there is only one result. -/
theorem run_eq_of_perm {op : Builtin} (hop : op ∈ [add, mul]) {ms ns : List Int64} {v w : Value}
    (hperm : ms.Perm ns) (hv : op.run (ms.map .int) = .ok v) (hw : op.run (ns.map .int) = .ok w) :
    v = w := by
  have hop' : op ∈ [add, sub, mul] := by
    simp only [List.mem_cons, List.not_mem_nil, or_false] at hop ⊢
    tauto
  have hms := exactOrRefused_run hop' ms (by simpa using accepts_of_run_eq_ok hv)
  have hns := exactOrRefused_run hop' ns (by simpa using accepts_of_run_eq_ok hw)
  rw [hv] at hms
  rw [hw] at hns
  cases hms with
  | exact _ hm =>
    cases hns with
    | exact _ hn =>
      rw [exactResult_eq_of_perm hop (hperm.map _), ← hn] at hm
      rw [Int64.toInt_inj.1 hm]

end Builtin

/-! ## Comparisons -/

/-- An integer or a double. -/
def Value.IsNumber (v : Value) : Prop := ∃ x : Number, x.toValue = v

namespace Number

theorem ofValue_toValue (name : String) (x : Number) : ofValue name x.toValue = .ok x := by
  cases x <;> rfl

theorem ofValue_of_not_isNumber (name : String) {v : Value} (h : ¬ v.IsNumber) :
    ofValue name v = wrongType name "numbers" v := by
  cases v with
  | int n => exact absurd ⟨.int n, rfl⟩ h
  | float x => exact absurd ⟨.float x, rfl⟩ h
  | _ => rfl

theorem mapM_ofValue (name : String) (xs : List Number) :
    (xs.map toValue).mapM (ofValue name) = .ok xs := by
  induction xs with
  | nil => rfl
  | cons x xs ih =>
    rw [List.map_cons, List.mapM_cons, ofValue_toValue, ih]
    rfl

/-- Of the values that are no numbers, the first one is reported. -/
theorem mapM_ofValue_of_not_isNumber (name : String) {args : List Value}
    (h : ∃ v ∈ args, ¬ v.IsNumber) :
    ∃ v ∈ args, ¬ v.IsNumber ∧ args.mapM (ofValue name) = wrongType name "numbers" v := by
  induction args with
  | nil => simp at h
  | cons a args ih =>
    by_cases ha : a.IsNumber
    · obtain ⟨x, rfl⟩ := ha
      have hrest : ∃ v ∈ args, ¬ v.IsNumber := by
        obtain ⟨v, hmem, hv⟩ := h
        obtain rfl | hmem := List.mem_cons.1 hmem
        · exact absurd ⟨x, rfl⟩ hv
        · exact ⟨v, hmem, hv⟩
      obtain ⟨v, hmem, hv, hfails⟩ := ih hrest
      refine ⟨v, List.mem_cons_of_mem _ hmem, hv, ?_⟩
      rw [List.mapM_cons, ofValue_toValue, hfails]
      rfl
    · refine ⟨a, List.mem_cons_self, ha, ?_⟩
      rw [List.mapM_cons, ofValue_of_not_isNumber name ha]
      rfl

end Number

namespace Comparison

variable {op : Comparison} {rel : Int → Int → Prop}

/-- On words the comparison decides the relation. -/
def Decides (op : Comparison) (rel : Int → Int → Prop) : Prop :=
  ∀ a b, op.onInts a b = true ↔ rel a.toInt b.toInt

theorem equal_decides : equal.Decides (· = ·) := fun _ _ => beq_iff_eq.trans Int64.toInt_inj.symm

theorem less_decides : less.Decides (· < ·) :=
  fun _ _ => decide_eq_true_iff.trans Int64.lt_iff_toInt_lt

theorem greater_decides : greater.Decides (· > ·) := fun a b => less_decides b a

theorem lessOrEqual_decides : lessOrEqual.Decides (· ≤ ·) :=
  fun _ _ => decide_eq_true_iff.trans Int64.le_iff_toInt_le

theorem greaterOrEqual_decides : greaterOrEqual.Decides (· ≥ ·) :=
  fun a b => lessOrEqual_decides b a

theorem chain_ints (h : op.Decides rel) (ns : List Int64) :
    op.chain (ns.map .int) = true ↔ (ns.map Int64.toInt).IsChain rel := by
  induction ns with
  | nil => simp [chain]
  | cons n ns ih =>
    cases ns with
    | nil => simp [chain]
    | cons m ns =>
      rw [List.map_cons, List.map_cons, chain, Bool.and_eq_true, List.map_cons, List.map_cons,
        List.isChain_cons_cons]
      exact and_congr (h n m) ih

/-- Neighbours speak for all pairs. -/
theorem apply_ints (h : op.Decides rel) [IsTrans Int rel] (ns : List Int64) :
    ∃ b, op.apply (ns.map .int) = .ok (.bool b) ∧
      (b = true ↔ (ns.map Int64.toInt).Pairwise rel) := by
  refine ⟨op.chain (ns.map .int), ?_, ?_⟩
  · have hmap : ns.map Value.int = (ns.map Number.int).map Number.toValue := by
      simp [Number.toValue]
    rw [apply, hmap, Number.mapM_ofValue]
    rfl
  · rw [chain_ints h, List.isChain_iff_pairwise]

end Comparison

namespace Builtin

def comparisons : List Builtin := [equal, less, greater, lessOrEqual, greaterOrEqual]

/-- What a comparison says of two integers. -/
def relation : Builtin → Int → Int → Prop
  | equal => (· = ·)
  | less => (· < ·)
  | greater => (· > ·)
  | lessOrEqual => (· ≤ ·)
  | greaterOrEqual => (· ≥ ·)
  | _ => fun _ _ => False

variable {op : Builtin}

/-- Each comparison is one of the family, with a transitive relation. -/
theorem exists_comparison (hop : op ∈ comparisons) :
    ∃ c : Comparison, op.apply = c.apply ∧ c.Decides op.relation ∧ IsTrans Int op.relation := by
  simp only [comparisons, List.mem_cons, List.not_mem_nil, or_false] at hop
  obtain rfl | rfl | rfl | rfl | rfl := hop
  · exact ⟨_, rfl, Comparison.equal_decides, inferInstanceAs (IsTrans Int (· = ·))⟩
  · exact ⟨_, rfl, Comparison.less_decides, inferInstanceAs (IsTrans Int (· < ·))⟩
  · exact ⟨_, rfl, Comparison.greater_decides, inferInstanceAs (IsTrans Int (· > ·))⟩
  · exact ⟨_, rfl, Comparison.lessOrEqual_decides, inferInstanceAs (IsTrans Int (· ≤ ·))⟩
  · exact ⟨_, rfl, Comparison.greaterOrEqual_decides, inferInstanceAs (IsTrans Int (· ≥ ·))⟩

theorem run_comparison (hop : op ∈ comparisons) {args : List Value} (h : 2 ≤ args.length) :
    op.run args = op.apply args := by
  simp only [comparisons, List.mem_cons, List.not_mem_nil, or_false] at hop
  obtain rfl | rfl | rfl | rfl | rfl := hop <;> exact run_of_accepts h

/-- Sums, differences and products of integers are exact, or refused when a result on the way from
left to right does not fit, so that two orders do not lead to two results. A comparison holds when
its relation is between all earlier and later integers, and demands numbers even behind a pair that
has decided. -/
theorem integer_operations_are_exact :
    (∀ op ∈ [add, sub, mul], ∀ ns : List Int64, op.arity.Accepts ns.length →
      Arithmetic.ExactOrRefused (op.partialResults (ns.map Int64.toInt))
        (op.exactResult (ns.map Int64.toInt)) (op.run (ns.map .int))) ∧
    (∀ op ∈ [add, mul], ∀ ms ns : List Int64, ms.Perm ns → ∀ v w,
      op.run (ms.map .int) = .ok v → op.run (ns.map .int) = .ok w → v = w) ∧
    (∀ op ∈ comparisons, ∀ ns : List Int64, 2 ≤ ns.length →
      ∃ b, op.run (ns.map .int) = .ok (.bool b) ∧
        (b = true ↔ (ns.map Int64.toInt).Pairwise op.relation)) ∧
    ∀ op ∈ comparisons, ∀ args, (∃ v ∈ args, ¬ v.IsNumber) →
      ∃ e, e.kind = .typeMismatch ∧ op.apply args = .error e ∧
        (2 ≤ args.length → op.run args = .error e) := by
  refine ⟨fun op hop ns => exactOrRefused_run hop ns,
    fun op hop ms ns hperm v w => run_eq_of_perm hop hperm, fun op hop ns hcount => ?_,
    fun op hop args hargs => ?_⟩
  · obtain ⟨c, happly, hdecides, htrans⟩ := exists_comparison hop
    rw [run_comparison hop (by simpa using hcount), happly]
    exact c.apply_ints hdecides ns
  · obtain ⟨c, happly, -, -⟩ := exists_comparison hop
    obtain ⟨v, -, -, hfails⟩ := Number.mapM_ofValue_of_not_isNumber c.name hargs
    have herror : op.apply args = wrongType c.name "numbers" v := by
      rw [happly, Comparison.apply, hfails]
      rfl
    exact ⟨_, rfl, herror, fun hcount => (run_comparison hop hcount).trans herror⟩

/-- The least integer has no negation, a product has one value in both orders, and neither a decided
pair nor a pair that holds ends a comparison. -/
theorem integers_at_the_ends_of_the_range :
    Arithmetic.ExactOrRefused [9223372036854775808] 9223372036854775808
      (sub.run [.int Int64.minValue]) ∧
    (∃ v w, mul.run [.int 0, .int Int64.maxValue] = .ok v ∧
      mul.run [.int Int64.maxValue, .int 0] = .ok w ∧ v = w) ∧
    (∃ b, less.run [.int 1, .int 3, .int 2] = .ok (.bool b) ∧
      (b = true ↔ [1, 3, 2].Pairwise fun m n : Int => m < n)) ∧
    ∃ e, e.kind = .typeMismatch ∧ less.run [.int 2, .int 1, .nil] = .error e := by
  obtain ⟨harithmetic, horder, hcomparison, hnumbers⟩ := integer_operations_are_exact
  refine ⟨harithmetic sub (by decide) [Int64.minValue] (Nat.le_refl 1),
    ⟨.int 0, .int 0, rfl, rfl,
      horder mul (by decide) [0, Int64.maxValue] [Int64.maxValue, 0] (.swap _ _ _) _ _ rfl rfl⟩,
    hcomparison less (by decide) [1, 3, 2] (by decide), ?_⟩
  obtain ⟨e, hkind, -, hrun⟩ :=
    hnumbers less (by decide) [.int 2, .int 1, .nil] ⟨.nil, by simp, by rintro ⟨_ | _, ⟨⟩⟩⟩
  exact ⟨e, hkind, hrun (by decide)⟩

end Builtin

end SlotLisp
