/-
Blank text, said without a scanner.

A `Piece` is one piece of blank text: a space, a tab, a continued line, a line comment or a closed block comment.
Whether a text is one depends on what follows it: a comment takes its whole line, and a carriage return takes a line
feed along.

Results:
- `blank?_eq_some`, `blank?_eq_none`: the piece that is read is the one that stands at the front, if one does.
- `splitBlank_eq`: all blank text at the front is a `Gap`, and no piece starts after it.
- `Piece.truncate`, `Gap.truncate`: blank text is the same where the text ends sooner.
- `Piece.of_head`, `Gap.of_head`: of what follows blank text, only the first character matters.
- `Gap.append`: one blank text after another.
-/
import CurveScript.Proofs.LineBreaks
import Mathlib.Data.List.TakeWhile

namespace CurveScript.Blanks

/-! ## Runs of characters -/

section Runs

variable {p : Char → Bool} {w r : List Char}

/-- A run goes up to the first character that is not in it. -/
theorem takeWhile_run (hw : ∀ c ∈ w, p c = true) (hr : ∀ c, r.head? = some c → p c = false) :
    (w ++ r).takeWhile p = w := by
  rw [List.takeWhile_append_of_pos hw]
  cases r with
  | nil => simp
  | cons c r => simp [hr c rfl]

theorem dropWhile_run (hw : ∀ c ∈ w, p c = true) (hr : ∀ c, r.head? = some c → p c = false) :
    (w ++ r).dropWhile p = r := by
  rw [List.dropWhile_append_of_pos hw]
  cases r with
  | nil => rfl
  | cons c r => simp [hr c rfl]

theorem head?_dropWhile {c : Char} (h : (r.dropWhile p).head? = some c) : p c = false := by
  have hne : r.dropWhile p ≠ [] := by
    intro hnil
    rw [hnil] at h
    cases h
  have hhead := List.head_dropWhile_not p hne
  rw [List.head?_eq_some_head hne] at h
  cases h
  exact hhead

end Runs

/-! ## Pieces -/

/-- A line break before `f`: a carriage return takes a line feed along. -/
inductive Break : List Char → List Char → Prop where
  | lineFeed (f : List Char) : Break ['\n'] f
  | pair (f : List Char) : Break ['\r', '\n'] f
  | carriageReturn {f : List Char} (h : f.head? ≠ some '\n') : Break ['\r'] f

/-- A piece of blank text before `f`. A line comment ends where its line ends, a block comment at the first mark that
closes it. -/
inductive Piece : List Char → List Char → Prop where
  | space (f : List Char) : Piece [' '] f
  | tab (f : List Char) : Piece ['\t'] f
  | continued {b f : List Char} (h : Break b f) : Piece ('\\' :: b) f
  | line {mark body f : List Char} (hmark : mark = ['#'] ∨ mark = ['/', '/']) (hbody : ∀ c ∈ body, inLine c = true)
      (hf : ∀ c, f.head? = some c → inLine c = false) : Piece (mark ++ body) f
  | block {body : List Char} (f : List Char) (h : ¬ ['*', '/'] <:+: body) :
      Piece ('/' :: '*' :: (body ++ ['*', '/'])) f

/-- blank text before `f`, piece by piece -/
inductive Gap : List Char → List Char → Prop where
  | nil (f : List Char) : Gap [] f
  | cons {p b f : List Char} (hp : Piece p (b ++ f)) (h : Gap b f) : Gap (p ++ b) f

/-- a piece of blank text starts the text -/
def StartsBlank (cs : List Char) : Prop := ∃ p f, cs = p ++ f ∧ Piece p f

theorem lineBreak?_eq_some {cs b f : List Char} : lineBreak? cs = some (b, f) ↔ cs = b ++ f ∧ Break b f := by
  constructor
  · intro h
    refine ⟨(lineBreak?_append h).1.symm, ?_⟩
    unfold lineBreak? at h
    split at h
    · cases h; exact .pair f
    · cases h; exact .lineFeed f
    · next r hnext =>
      cases h
      refine .carriageReturn fun hf => ?_
      obtain ⟨r, rfl⟩ := List.head?_eq_some_iff.1 hf
      exact hnext r rfl
    · cases h
  · rintro ⟨rfl, hb⟩
    cases hb with
    | lineFeed => rfl
    | pair => rfl
    | carriageReturn h =>
      cases f with
      | nil => rfl
      | cons c f =>
        have hc : c ≠ '\n' := fun hc => h (by rw [hc]; rfl)
        simp [lineBreak?, hc]

theorem commentBody?_eq_some {cs p f : List Char} :
    commentBody? cs = some (p, f) ↔ ∃ body, p = body ++ ['*', '/'] ∧ cs = p ++ f ∧ ¬ ['*', '/'] <:+: body := by
  fun_induction commentBody? cs generalizing p with
  | case1 =>
    constructor
    · intro h
      cases h
    · rintro ⟨body, rfl, happ, -⟩
      simp at happ
  | case2 r =>
    constructor
    · intro h
      cases h
      exact ⟨[], rfl, rfl, by simp⟩
    · rintro ⟨body, rfl, happ, hbody⟩
      cases body with
      | nil =>
        cases happ
        rfl
      | cons c body =>
        cases body with
        | nil => simp at happ
        | cons d body =>
          cases happ
          exact absurd (List.infix_append [] ['*', '/'] body) hbody
  | case3 c r hne ih =>
    constructor
    · intro h
      obtain ⟨q, hq, he⟩ := Option.map_eq_some_iff.1 h
      cases he
      obtain ⟨body, hp, hr, hbody⟩ := ih.1 hq
      refine ⟨c :: body, by rw [hp]; rfl, by rw [hr]; rfl, fun hin => ?_⟩
      rcases List.infix_cons_iff.1 hin with ⟨t, ht⟩ | hin
      · cases ht
        refine hne (t ++ ['*', '/'] ++ q.2) rfl ?_
        rw [hr, hp]
        rfl
      · exact hbody hin
    · rintro ⟨body, rfl, happ, hbody⟩
      cases body with
      | nil =>
        cases happ
        exact (hne _ rfl rfl).elim
      | cons d body =>
        cases happ
        have hrest := ih.2 ⟨body, rfl, rfl, fun hin => hbody (List.infix_cons hin)⟩
        rw [hrest]
        rfl

theorem line_of_takeWhile {mark : List Char} (hmark : mark = ['#'] ∨ mark = ['/', '/']) (r : List Char) :
    Piece (mark ++ r.takeWhile inLine) (r.dropWhile inLine) :=
  .line hmark (fun _ hc => List.mem_takeWhile_imp hc) fun _ hc => head?_dropWhile hc

/-- **A piece of blank text.** -/
theorem blank?_eq_some {cs p f : List Char} : blank? cs = some (p, f) ↔ cs = p ++ f ∧ Piece p f := by
  constructor
  · intro h
    refine ⟨(blank?_append h).1.symm, ?_⟩
    unfold blank? at h
    split at h
    · cases h; exact .space f
    · cases h; exact .tab f
    · obtain ⟨q, hq, he⟩ := Option.map_eq_some_iff.1 h
      cases he
      exact .continued (lineBreak?_eq_some.1 hq).2
    · cases h; exact line_of_takeWhile (.inl rfl) _
    · cases h; exact line_of_takeWhile (.inr rfl) _
    · obtain ⟨q, hq, he⟩ := Option.map_eq_some_iff.1 h
      cases he
      obtain ⟨body, hp, -, hbody⟩ := commentBody?_eq_some.1 hq
      rw [hp]
      exact .block _ hbody
    · cases h
  · rintro ⟨rfl, hp⟩
    cases hp with
    | space => rfl
    | tab => rfl
    | continued hb =>
      have hbreak := lineBreak?_eq_some.2 ⟨rfl, hb⟩
      simp [blank?, hbreak]
    | @line mark body _ hmark hbody hf =>
      have htake := takeWhile_run hbody hf
      have hdrop := dropWhile_run hbody hf
      rcases hmark with rfl | rfl
      · simp [blank?, htake, hdrop]
      · simp [blank?, htake, hdrop]
    | @block body _ h =>
      have hclosed : commentBody? (body ++ ['*', '/'] ++ f) = some (body ++ ['*', '/'], f) :=
        commentBody?_eq_some.2 ⟨body, rfl, rfl, h⟩
      simp only [List.cons_append, blank?, hclosed, Option.map_some]

theorem blank?_eq_none {cs : List Char} : blank? cs = none ↔ ¬ StartsBlank cs := by
  constructor
  · rintro h ⟨p, f, hcs, hp⟩
    rw [blank?_eq_some.2 ⟨hcs, hp⟩] at h
    cases h
  · intro h
    cases hb : blank? cs with
    | none => rfl
    | some q => exact absurd ⟨q.1, q.2, blank?_eq_some.1 hb⟩ h

theorem Gap.splitBlank {b f : List Char} (h : Gap b f) (hf : ¬ StartsBlank f) :
    CurveScript.splitBlank (b ++ f) = (b, f) := by
  induction h with
  | nil f =>
    rw [List.nil_append, CurveScript.splitBlank]
    split
    · rfl
    · next hsome =>
      rw [blank?_eq_none.2 hf] at hsome
      cases hsome
  | @cons p b f hp h ih =>
    have hpiece : blank? (p ++ b ++ f) = some (p, b ++ f) := blank?_eq_some.2 ⟨List.append_assoc p b f, hp⟩
    rw [CurveScript.splitBlank]
    split
    · next hnone =>
      rw [hpiece] at hnone
      cases hnone
    · next hsome =>
      rw [hpiece] at hsome
      cases hsome
      rw [ih hf]

theorem gap_splitBlank (cs : List Char) : Gap (splitBlank cs).1 (splitBlank cs).2 := by
  fun_induction splitBlank cs with
  | case1 cs h => exact .nil cs
  | case2 cs p r h rest ih =>
    refine .cons ?_ ih
    rw [splitBlank_append]
    exact (blank?_eq_some.1 h).2

/-- **All blank text at the front.** -/
theorem splitBlank_eq {cs b f : List Char} : splitBlank cs = (b, f) ↔ cs = b ++ f ∧ Gap b f ∧ ¬ StartsBlank f := by
  constructor
  · intro h
    have happ := splitBlank_append cs
    have hgap := gap_splitBlank cs
    have hafter := @LineBreaks.blank?_after cs
    rw [h] at happ hgap hafter
    exact ⟨happ.symm, hgap, blank?_eq_none.1 hafter⟩
  · rintro ⟨rfl, hgap, hf⟩
    exact hgap.splitBlank hf

/-- A piece of blank text is one where the text ends sooner. -/
theorem Piece.truncate {p f g : List Char} (h : Piece p (f ++ g)) : Piece p f := by
  have hhead : ∀ c, f.head? = some c → (f ++ g).head? = some c := by
    intro c hc
    rw [List.head?_append, hc]
    rfl
  cases h with
  | space => exact .space f
  | tab => exact .tab f
  | continued hb =>
    cases hb with
    | lineFeed => exact .continued (.lineFeed f)
    | pair => exact .continued (.pair f)
    | carriageReturn h => exact .continued (.carriageReturn fun hf => h (hhead _ hf))
  | line hmark hbody hf => exact .line hmark hbody fun c hc => hf c (hhead c hc)
  | block _ h => exact .block f h

theorem Gap.truncate {b f g : List Char} (h : Gap b (f ++ g)) : Gap b f := by
  generalize hfg : f ++ g = f' at h
  induction h with
  | nil => exact .nil f
  | @cons p b f' hp h ih =>
    subst hfg
    rw [← List.append_assoc] at hp
    exact .cons hp.truncate (ih rfl)

theorem Gap.append {a b f : List Char} (ha : Gap a (b ++ f)) (hb : Gap b f) : Gap (a ++ b) f := by
  generalize hbf : b ++ f = f' at ha
  induction ha with
  | nil => exact hb
  | @cons p a f' hp ha ih =>
    subst hbf
    rw [List.append_assoc]
    rw [← List.append_assoc] at hp
    exact .cons hp (ih rfl)

/-- Of what follows a piece of blank text, only the first character matters. -/
theorem Piece.of_head {p f g : List Char} (h : Piece p f) (hfg : g.head? = f.head?) : Piece p g := by
  cases h with
  | space => exact .space g
  | tab => exact .tab g
  | continued hb =>
    cases hb with
    | lineFeed => exact .continued (.lineFeed g)
    | pair => exact .continued (.pair g)
    | carriageReturn h => exact .continued (.carriageReturn (hfg ▸ h))
  | line hmark hbody hf => exact .line hmark hbody (hfg ▸ hf)
  | block _ h => exact .block g h

theorem Gap.of_head {b f g : List Char} (h : Gap b f) (hfg : g.head? = f.head?) : Gap b g := by
  induction h with
  | nil => exact .nil g
  | @cons p b f hp h ih =>
    refine .cons (hp.of_head ?_) (ih hfg)
    rw [List.head?_append, List.head?_append, hfg]

end CurveScript.Blanks
