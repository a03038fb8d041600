/-
The least and the greatest argument.

Both functions go through their arguments and keep the best so far. Two integers are compared as they are and any other
numbers as doubles, which is not transitive (`Comparing`), so the best so far need not compare well with the arguments
it was not compared with itself. What each step does keep is a key that follows comparisons (`Follows`): the integer
where all arguments are integers, and the place among the doubles otherwise. The best so far has the key nearest to the
end that is looked for (`bestOf_end`).

Results:
- `extremum_invalid`: the first argument that is not a number.
- `extremum_end`: the argument that is found, for any key.
- `extremes_found`: the theorem.
Witness: `blurred_least`.
-/
import CurveScript.Proofs.Comparing
import CurveScript.Proofs.Numbers

namespace CurveScript.Extremes

open CurveScript.Doubles CurveScript.Comparing CurveScript.Numbers

/-! ## Ends of an order -/

/-- an end of an order -/
inductive Side where
  | least
  | greatest

namespace Side

/-- the function that looks for this end -/
def builtin : Side → Builtin
  | least => .min
  | greatest => .max

/-- the comparison that says that a number is better than the best so far -/
def operator : Side → BinaryOperator
  | least => .lt
  | greatest => .gt

/-- the first element is at least as near to this end as the second -/
def Reaches {α : Type} [LE α] : Side → α → α → Prop
  | least, a, b => a ≤ b
  | greatest, a, b => b ≤ a

/-- an element of a list, at least as near to this end as all others -/
def IsEnd {α : Type} [LE α] (s : Side) (a : α) (as : List α) : Prop := a ∈ as ∧ ∀ b ∈ as, s.Reaches a b

theorem reaches_refl {α : Type} [Preorder α] (s : Side) (a : α) : s.Reaches a a := by
  cases s <;> exact le_refl a

theorem Reaches.trans {α : Type} [Preorder α] {s : Side} {a b c : α} (hab : s.Reaches a b) (hbc : s.Reaches b c) :
    s.Reaches a c := by
  cases s with
  | least => exact le_trans hab hbc
  | greatest => exact le_trans hbc hab

theorem Reaches.antisymm {α : Type} [PartialOrder α] {s : Side} {a b : α} (hab : s.Reaches a b)
    (hba : s.Reaches b a) : a = b := by
  cases s with
  | least => exact le_antisymm hab hba
  | greatest => exact le_antisymm hba hab

theorem call_builtin (s : Side) (args : List Value) :
    s.builtin.call args = Builtin.extremum s.builtin.name s.operator args := by
  cases s <;> rfl

end Side

variable {s : Side} {name : String} {v best : Value} {vs args : List Value}

/-! ## Arguments that are not numbers -/

theorem number_some {x : Float} (h : v.number? = some x) : Builtin.number name [v] 0 = .ok x := by
  simp [Builtin.number, h]

theorem number_invalid (h : v.isNumeric = false) :
    Builtin.number name [v] 0 = .error (.invalidOperand name v.kind) := by
  simp [Builtin.number, number?_none h]

/-- Comparing two numbers never fails, whether they are finite or not. -/
theorem better_ok (hv : v.isNumeric = true) (hbest : best.isNumeric = true) :
    ∃ b, Builtin.better s.operator v best = .ok b := by
  cases v with
  | integer m =>
    cases best with
    | integer n => cases s <;> exact ⟨_, rfl⟩
    | float y => cases s <;> exact ⟨_, rfl⟩
    | _ => cases hbest
  | float x =>
    cases best with
    | integer n => cases s <;> exact ⟨_, rfl⟩
    | float y => cases s <;> exact ⟨_, rfl⟩
    | _ => cases hbest
  | _ => cases hv

/-- one argument: it replaces the best so far if it is better -/
theorem bestOf_cons (hv : v.isNumeric = true) {b : Bool} (hb : Builtin.better s.operator v best = .ok b) :
    Builtin.bestOf name s.operator best (v :: vs) = Builtin.bestOf name s.operator (if b then v else best) vs := by
  obtain ⟨x, hx⟩ := number?_some hv
  rw [Builtin.bestOf, number_some hx, hb]
  cases b <;> rfl

/-- **The first argument that is not a number** is reported, whatever stands before and after it. -/
theorem bestOf_invalid (hbest : best.isNumeric = true) (h : vs.find? (fun u => !u.isNumeric) = some v) :
    Builtin.bestOf name s.operator best vs = .error (.invalidOperand name v.kind) := by
  induction vs generalizing best with
  | nil => cases h
  | cons u us ih =>
    cases hu : u.isNumeric with
    | true =>
      rw [List.find?_cons_of_neg (by simp [hu])] at h
      obtain ⟨b, hb⟩ := better_ok (s := s) hu hbest
      rw [bestOf_cons hu hb]
      exact ih (by cases b <;> assumption) h
    | false =>
      rw [List.find?_cons_of_pos (by simp [hu])] at h
      cases h
      rw [Builtin.bestOf, number_invalid hu]

theorem extremum_invalid (h : args.find? (fun u => !u.isNumeric) = some v) :
    Builtin.extremum name s.operator args = .error (.invalidOperand name v.kind) := by
  cases args with
  | nil => cases h
  | cons u us =>
    cases hu : u.isNumeric with
    | true =>
      rw [List.find?_cons_of_neg (by simp [hu])] at h
      obtain ⟨x, hx⟩ := number?_some hu
      simp only [Builtin.extremum, number_some hx, bestOf_invalid hu h]
    | false =>
      rw [List.find?_cons_of_pos (by simp [hu])] at h
      cases h
      simp only [Builtin.extremum, number_invalid hu]

/-! ## The best of the arguments -/

/-- Values of one sort are numbers, and those that compare as less or equal have keys in this order. -/
structure Follows {α : Type} [Preorder α] (sort : Value → Prop) (key : Value → α) : Prop where
  numeric : ∀ {v}, sort v → Numeric v
  mono : ∀ {v w}, sort v → sort w → order v w ≠ .gt → key v ≤ key w

theorem follows_rank : Follows Numeric rank := ⟨id, rank_le⟩

theorem follows_toInt : Follows (fun v => ∃ n, v = .integer n) (fun v => v.integer?.elim 0 Int64.toInt) := by
  constructor
  · rintro v ⟨n, rfl⟩
    exact .integer n
  · rintro v w ⟨m, rfl⟩ ⟨n, rfl⟩ h
    exact compare_le_iff_le.1 h

theorem isNumeric_of_numeric (h : Numeric v) : v.isNumeric = true := by
  cases h <;> rfl

theorem better_answers {op : BinaryOperator} (hop : op.isComparison = true) (hv : Numeric v) (hbest : Numeric best) :
    Builtin.better op v best = .ok (Value.holds op (some (order v best))) := by
  rw [Builtin.better, comparison_answers hop hv hbest]
  cases Value.holds op (some (order v best)) <;> rfl

section Best

variable {α : Type} [Preorder α] {sort : Value → Prop} {key : Value → α}

theorem Follows.anti (h : Follows sort key) {w : Value} (hv : sort v) (hw : sort w) (hne : order v w ≠ .lt) :
    key w ≤ key v := by
  refine h.mono hw hv ?_
  rw [← order_swap (h.numeric hv) (h.numeric hw)]
  cases ho : order v w with
  | lt => exact absurd ho hne
  | eq => decide
  | gt => decide

/-- The better of two numbers has the key that is nearer to the end. -/
theorem better_reaches (s : Side) (h : Follows sort key) (hv : sort v) (hbest : sort best) :
    ∃ b, Builtin.better s.operator v best = .ok b ∧ s.Reaches (key (if b then v else best)) (key v) ∧
      s.Reaches (key (if b then v else best)) (key best) := by
  have hle : order v best ≠ .gt → key v ≤ key best := h.mono hv hbest
  have hge : order v best ≠ .lt → key best ≤ key v := h.anti hv hbest
  cases s with
  | least =>
    refine ⟨_, better_answers rfl (h.numeric hv) (h.numeric hbest), ?_⟩
    cases ho : order v best with
    | lt => exact ⟨le_refl _, hle (by simp [ho])⟩
    | eq => exact ⟨hge (by simp [ho]), le_refl _⟩
    | gt => exact ⟨hge (by simp [ho]), le_refl _⟩
  | greatest =>
    refine ⟨_, better_answers rfl (h.numeric hv) (h.numeric hbest), ?_⟩
    cases ho : order v best with
    | lt => exact ⟨hle (by simp [ho]), le_refl _⟩
    | eq => exact ⟨hle (by simp [ho]), le_refl _⟩
    | gt => exact ⟨le_refl _, hge (by simp [ho])⟩

/-- **The best of some numbers** is one of them, and no other key is nearer to the end. -/
theorem bestOf_end (s : Side) (name : String) (h : Follows sort key) (hbest : sort best) (hvs : ∀ u ∈ vs, sort u) :
    ∃ w, Builtin.bestOf name s.operator best vs = .ok w ∧ w ∈ best :: vs ∧
      ∀ u ∈ best :: vs, s.Reaches (key w) (key u) := by
  induction vs generalizing best with
  | nil =>
    refine ⟨best, rfl, List.mem_cons_self, fun u hu => ?_⟩
    rw [List.mem_singleton.1 hu]
    exact s.reaches_refl _
  | cons v vs ih =>
    obtain ⟨hv, htail⟩ := List.forall_mem_cons.1 hvs
    obtain ⟨b, hb, hnew, hold⟩ := better_reaches s h hv hbest
    have hnext : sort (if b then v else best) := by cases b <;> assumption
    obtain ⟨w, hw, hmem, hends⟩ := ih hnext htail
    -- the argument and the best before it are both surpassed by the better of them, and this one by the result
    have hreaches := hends _ List.mem_cons_self
    refine ⟨w, (bestOf_cons (isNumeric_of_numeric (h.numeric hv)) hb).trans hw, ?_, ?_⟩
    · rcases List.mem_cons.1 hmem with rfl | hrest
      · cases b <;> simp
      · exact List.mem_cons_of_mem _ (List.mem_cons_of_mem _ hrest)
    · intro u hu
      rcases List.mem_cons.1 hu with rfl | hu
      · exact hreaches.trans hold
      · rcases List.mem_cons.1 hu with rfl | hu
        · exact hreaches.trans hnew
        · exact hends u (List.mem_cons_of_mem _ hu)

/-- **The argument that is found**, and what it is given as. -/
theorem extremum_end (s : Side) (name : String) (h : Follows sort key) (hne : args ≠ []) (hargs : ∀ v ∈ args, sort v) :
    ∃ w ∈ args, (∀ v ∈ args, s.Reaches (key w) (key v)) ∧ ∃ x, w.number? = some x ∧
      Builtin.extremum name s.operator args =
        if args.all Builtin.isInteger then .ok w else Builtin.float name x := by
  cases args with
  | nil => exact absurd rfl hne
  | cons v vs =>
    obtain ⟨hv, hvs⟩ := List.forall_mem_cons.1 hargs
    obtain ⟨w, hw, hmem, hends⟩ := bestOf_end s name h hv hvs
    obtain ⟨x, hx⟩ := number?_some (isNumeric_of_numeric (h.numeric hv))
    obtain ⟨y, hy⟩ := number?_some (isNumeric_of_numeric (h.numeric (hargs w hmem)))
    refine ⟨w, hmem, hends, y, hy, ?_⟩
    simp only [Builtin.extremum, number_some hx, hw, number_some hy]

end Best

/-! ## Integers and finite numbers -/

/-- the arguments that are numbers, as doubles -/
def doubles (args : List Value) : List Float := args.filterMap Value.number?

theorem numeric_of_number (h : Number v) : Numeric v := by
  cases h with
  | integer n => exact .integer n
  | float hx => exact .float (isNaN_of_isFinite hx)

theorem finite_of_number {x : Float} (h : Number v) (hx : v.number? = some x) :
    x.isFinite = true ∧ rank v = level x := by
  cases h with
  | integer n =>
    cases hx
    exact ⟨(toDouble_value n).1, rfl⟩
  | float hfinite =>
    cases hx
    exact ⟨hfinite, rfl⟩

theorem float_finite {x : Float} (h : x.isFinite = true) : Builtin.float name x = .ok (.float x) := by
  rw [Builtin.float, isNaN_of_isFinite h, h]
  rfl

theorem reaches_level {x y : Float} (hx : x.isFinite = true) (hy : y.isFinite = true) :
    s.Reaches x y ↔ s.Reaches (level x) (level y) := by
  have hx := isNaN_of_isFinite hx
  have hy := isNaN_of_isFinite hy
  cases s with
  | least => exact le_iff hx hy
  | greatest => exact le_iff hy hx

theorem isFinite_of_mem_doubles {x : Float} (hargs : ∀ v ∈ args, Number v) (hx : x ∈ doubles args) :
    x.isFinite = true := by
  obtain ⟨v, hv, hnumber⟩ := List.mem_filterMap.1 hx
  exact (finite_of_number (hargs v hv) hnumber).1

/-- **Integers**: the result is the least or greatest of them. -/
theorem extremum_integers (s : Side) (name : String) {ns : List Int64} (hne : ns ≠ []) :
    ∃ n, Builtin.extremum name s.operator (ns.map .integer) = .ok (.integer n) ∧ n ∈ ns ∧
      ∀ m ∈ ns, s.Reaches n.toInt m.toInt := by
  have hsort : ∀ v ∈ ns.map Value.integer, ∃ n, v = .integer n := by
    intro v hv
    obtain ⟨n, -, rfl⟩ := List.mem_map.1 hv
    exact ⟨n, rfl⟩
  obtain ⟨w, hw, hends, x, -, hresult⟩ := extremum_end s name follows_toInt (by simpa using hne) hsort
  obtain ⟨n, hn, rfl⟩ := List.mem_map.1 hw
  refine ⟨n, ?_, hn, fun m hm => hends _ (List.mem_map_of_mem hm)⟩
  rw [hresult, if_pos (by simp [Builtin.isInteger, Value.integer?])]

/-- **Finite numbers**, of which one is a float: the result is the least or greatest of them as doubles. -/
theorem extremum_floats (s : Side) (name : String) (hargs : ∀ v ∈ args, Number v) {y : Float} (hy : .float y ∈ args) :
    ∃ x, Builtin.extremum name s.operator args = .ok (.float x) ∧ s.IsEnd x (doubles args) := by
  obtain ⟨w, hw, hends, x, hx, hresult⟩ := extremum_end s name follows_rank
    (List.ne_nil_of_mem hy) (fun v hv => numeric_of_number (hargs v hv))
  obtain ⟨hfinite, hrank⟩ := finite_of_number (hargs w hw) hx
  refine ⟨x, ?_, List.mem_filterMap.2 ⟨w, hw, hx⟩, fun z hz => ?_⟩
  · rw [hresult, float_finite hfinite, if_neg]
    intro hall
    exact nomatch List.all_eq_true.1 hall _ hy
  · obtain ⟨v, hv, hz⟩ := List.mem_filterMap.1 hz
    obtain ⟨hfinite', hrank'⟩ := finite_of_number (hargs v hv) hz
    rw [reaches_level hfinite hfinite', ← hrank, ← hrank']
    exact hends v hv

/-- Two least doubles are equal, and so are two greatest, though they may differ in the sign of zero. -/
theorem isEnd_beq {x y : Float} (hargs : ∀ v ∈ args, Number v) (hx : s.IsEnd x (doubles args))
    (hy : s.IsEnd y (doubles args)) : (x == y) = true := by
  have hxfinite := isFinite_of_mem_doubles hargs hx.1
  have hyfinite := isFinite_of_mem_doubles hargs hy.1
  rw [beq_iff (isNaN_of_isFinite hxfinite) (isNaN_of_isFinite hyfinite)]
  exact ((reaches_level hxfinite hyfinite).1 (hx.2 y hy.1)).antisymm
    ((reaches_level hyfinite hxfinite).1 (hy.2 x hx.1))

/-- Finite numbers are all integers, or one of them is a float. -/
theorem integers_or_float (hargs : ∀ v ∈ args, Number v) :
    (∃ ns : List Int64, args = ns.map .integer) ∨ ∃ y, Value.float y ∈ args := by
  induction args with
  | nil => exact Or.inl ⟨[], rfl⟩
  | cons v vs ih =>
    obtain ⟨hv, hvs⟩ := List.forall_mem_cons.1 hargs
    cases hv with
    | float hx => exact Or.inr ⟨_, List.mem_cons_self⟩
    | integer n =>
      rcases ih hvs with ⟨ns, rfl⟩ | ⟨y, hy⟩
      · exact Or.inl ⟨n :: ns, rfl⟩
      · exact Or.inr ⟨y, List.mem_cons_of_mem _ hy⟩

/-- **The order of the arguments** does not matter. -/
theorem extremum_perm (s : Side) (name : String) {others : List Value} (hne : args ≠ []) (hargs : ∀ v ∈ args, Number v)
    (hperm : args.Perm others) :
    ∃ v w, Builtin.extremum name s.operator args = .ok v ∧ Builtin.extremum name s.operator others = .ok w ∧
      v.same w = true := by
  rcases integers_or_float hargs with ⟨ns, rfl⟩ | ⟨y, hy⟩
  · obtain ⟨ms, rfl⟩ := (integers_or_float fun v hv => hargs v (hperm.mem_iff.2 hv)).resolve_right (by
      rintro ⟨y, hy⟩
      simpa using hperm.mem_iff.2 hy)
    have hmem (n : Int64) : n ∈ ns ↔ n ∈ ms := by simpa using hperm.mem_iff (a := Value.integer n)
    obtain ⟨n, hn, hnmem, hnends⟩ := extremum_integers s name (List.map_eq_nil_iff.not.1 hne)
    obtain ⟨m, hm, hmmem, hmends⟩ := extremum_integers s name
      (List.ne_nil_of_mem ((hmem n).1 hnmem))
    refine ⟨_, _, hn, hm, ?_⟩
    have heq := (hnends m ((hmem m).2 hmmem)).antisymm (hmends n ((hmem n).1 hnmem))
    rw [Int64.toInt_inj.1 heq]
    exact beq_self_eq_true m
  · have hothers : ∀ v ∈ others, Number v := fun v hv => hargs v (hperm.mem_iff.2 hv)
    obtain ⟨x, hx, hxend⟩ := extremum_floats s name hargs hy
    obtain ⟨z, hz, hzmem, hzends⟩ := extremum_floats s name hothers (hperm.mem_iff.1 hy)
    refine ⟨_, _, hx, hz, ?_⟩
    have hdoubles : (doubles args).Perm (doubles others) := hperm.filterMap _
    exact isEnd_beq hargs hxend ⟨hdoubles.mem_iff.2 hzmem, fun u hu => hzends u (hdoubles.mem_iff.1 hu)⟩

/-! ## The theorem -/

/-- **Both functions find true extremes.** If some argument is not a number, the call fails and names the kind of the
first such argument. If all are integers, the result is the integer among them that is least or greatest. If all are
finite numbers and one is a float, the result is a float, which is among the arguments as doubles, is at least as near
to the end as any of them, and is equal to every other such double. And finite numbers in another order give an equal
result. -/
theorem extremes_found (s : Side) {args : List Value} (hne : args ≠ []) :
    (∀ v, args.find? (fun u => !u.isNumeric) = some v →
      s.builtin.call args = .error (.invalidOperand s.builtin.name v.kind)) ∧
    (∀ ns : List Int64, args = ns.map .integer →
      ∃ n, s.builtin.call args = .ok (.integer n) ∧ n ∈ ns ∧ ∀ m ∈ ns, s.Reaches n.toInt m.toInt) ∧
    ((∀ v ∈ args, Number v) → (∃ y, .float y ∈ args) →
      ∃ x, s.builtin.call args = .ok (.float x) ∧ s.IsEnd x (doubles args) ∧
        ∀ y, s.IsEnd y (doubles args) → (x == y) = true) ∧
    ((∀ v ∈ args, Number v) → ∀ others, args.Perm others →
      ∃ v w, s.builtin.call args = .ok v ∧ s.builtin.call others = .ok w ∧ v.same w = true) := by
  simp only [s.call_builtin]
  refine ⟨fun v hv => extremum_invalid hv, ?_, ?_, fun hargs others hperm => extremum_perm s _ hne hargs hperm⟩
  · rintro ns rfl
    exact extremum_integers s _ (List.map_eq_nil_iff.not.1 hne)
  · rintro hargs ⟨y, hy⟩
    obtain ⟨x, hx, hend⟩ := extremum_floats s s.builtin.name hargs hy
    exact ⟨x, hx, hend, fun z hz => isEnd_beq hargs hend hz⟩

/-- Two integers that share a double, with that double between them: the least is found, as a float. -/
theorem blurred_least :
    ∃ x, Builtin.min.call [.integer 9007199254740993, .float 9007199254740992.0, .integer 9007199254740992] =
        .ok (.float x) ∧
      (x == 9007199254740992.0) = true := by
  obtain ⟨x, hx, hend, heq⟩ := (extremes_found .least (List.cons_ne_nil (.integer 9007199254740993)
    [.float 9007199254740992.0, .integer 9007199254740992])).2.2.1
      (by
        intro v hv
        simp only [List.mem_cons, List.not_mem_nil, or_false] at hv
        rcases hv with rfl | rfl | rfl
        · exact .integer _
        · exact .float rfl
        · exact .integer _)
      ⟨_, List.mem_cons_of_mem _ List.mem_cons_self⟩
  have hdoubles : doubles [.integer 9007199254740993, .float 9007199254740992.0, .integer 9007199254740992] =
      List.replicate 3 9007199254740992.0 := rfl
  refine ⟨x, hx, heq _ ?_⟩
  rw [hdoubles]
  refine ⟨List.mem_replicate.2 ⟨by decide, rfl⟩, fun y hy => ?_⟩
  rw [List.eq_of_mem_replicate hy]
  exact (le_iff rfl rfl).2 le_rfl

end CurveScript.Extremes
