/-
Names that libraries register and scripts call.

The loader checks the names of a plugin library character by character, and a script's names are words of its text. Both
are letters, digits and underscores with no digit first, so that what is registered under a name is called by writing
the name in front of arguments. There is one exception. The word `fn` starts a lambda and is no name in a script, while
the loader lets it pass, and a function of that name can never be called by it.

Results:
- `tokens_named`, `tokenize_name`: the names in a script are identifiers other than `fn`, and each of these is a name.
- `load_exported`: what loading adds to a registry are functions of libraries, each under its own name, an identifier.
- `arguments_spelled`, `run_call`: a call with numbers, from its text to its result.
- `names_callable`: the names that are one word for both sides, and the call of every function that is registered.
Witness: `step_callable`. `keyword_registered` is the exception.
-/
import CurveScript.Plugin.Demo
import CurveScript.Proofs.Declarations
import CurveScript.Proofs.Invariants
import CurveScript.Proofs.ReadBack

namespace CurveScript.Callable

open CurveScript.Blanks CurveScript.Words CurveScript.Munching CurveScript.RunFold CurveScript.Grammar
  CurveScript.OneStatement CurveScript.Plugin CurveScript.Invariants

/-! ## Names in a text -/

/-- The loader's identifiers are the words that the lexer takes for names. -/
theorem isIdentifier_iff_word (after : Bool) (s : String) : isIdentifier s = true ↔ Word after .name s.toList := by
  unfold isIdentifier
  constructor
  · intro h
    cases hs : s.toList with
    | nil => simp [hs] at h
    | cons c cs =>
      have hboth : (startsName c && cs.all inName) = true := by rwa [hs] at h
      obtain ⟨hc, hcs⟩ := Bool.and_eq_true_iff.1 hboth
      exact .name hc (List.all_eq_true.1 hcs)
  · intro h
    generalize s.toList = w at h
    cases h with
    | name hc hcs => exact Bool.and_eq_true_iff.2 ⟨hc, List.all_eq_true.2 hcs⟩

theorem name_not_startsBlank {after : Bool} {w : List Char} (h : Word after .name w) : ¬ StartsBlank w := by
  cases h with
  | name hc hcs =>
    apply not_startsBlank_of_ne
    refine ⟨?_, ?_, ?_, ?_, ?_⟩ <;> rintro rfl <;> exact absurd hc (by decide)

/-- The token of a name is made by a word for names, and by any other than the keyword. -/
theorem makes_named {kind : LexemeKind} {w : List Char} {s : String} (h : Makes kind w (.name s)) :
    kind = .name ∧ s = String.ofList w ∧ s ≠ "fn" := by
  cases h with
  | name hw =>
    refine ⟨rfl, rfl, fun heq => hw ?_⟩
    have hchars := congrArg String.toList heq
    rwa [String.toList_ofList] at hchars

theorem splits_named {after : Bool} {pos : Nat} {cs : List Char} {ts : List Token} (h : Splits after pos cs ts) :
    ∀ t ∈ ts, ∀ s, t.kind = .name s → isIdentifier s = true ∧ s ≠ "fn" := by
  induction h with
  | done => simp
  | @token after pos b w rest kind t ts hb hblank hw ht hrest ih =>
    rw [List.forall_mem_cons]
    refine ⟨fun s hs => ?_, ih⟩
    obtain ⟨rfl, rfl, hfn⟩ := makes_named (hs ▸ ht.makes)
    have hword := hw.word
    exact ⟨(isIdentifier_iff_word after _).2 (by rwa [String.toList_ofList]), hfn⟩

/-- **The names in a script** are identifiers other than the keyword. -/
theorem tokens_named {source : String} {ts : List Token} (h : Token.tokenize source = .ok ts) :
    ∀ t ∈ ts, ∀ s, t.kind = .name s → isIdentifier s = true ∧ s ≠ "fn" :=
  splits_named (splits_of_tokens h)

theorem ofLexeme_name {s : String} (hs : s ≠ "fn") (pos : Nat) :
    Token.ofLexeme ⟨.name, s.toList, pos⟩ = .ok ⟨.name s, ⟨pos, pos + byteLength s.toList⟩⟩ := by
  have hchars : s.toList ≠ ['f', 'n'] := fun h => hs (String.toList_injective h)
  simp only [Token.ofLexeme, Token.nameKind, if_neg hchars, String.ofList_toList]
  rfl

/-- **A text is a single name** exactly if it is an identifier other than the keyword. -/
theorem tokenize_name (s : String) :
    (∃ span, Token.tokenize s = .ok [⟨.name s, span⟩]) ↔ isIdentifier s = true ∧ s ≠ "fn" := by
  constructor
  · rintro ⟨span, h⟩
    exact tokens_named h _ (List.mem_singleton_self _) s rfl
  · rintro ⟨hs, hfn⟩
    have hword := (isIdentifier_iff_word false s).1 hs
    have htokens := tokenize_word hword (name_not_startsBlank hword) (ofLexeme_name hfn 0)
    rw [String.ofList_toList] at htokens
    exact ⟨_, htokens⟩

/-! ## Names in a library -/

theorem read_identifiers {d : Option Declaration} {name : String} {fs : List ExportedFunction}
    (h : Declaration.read d = .ok (name, fs)) : ∀ f ∈ fs, isIdentifier f.name = true := by
  cases d with
  | none => cases h
  | some d =>
    obtain ⟨-, -, -, hfs⟩ := Declarations.read_ok_iff.1 h
    clear h
    generalize Declarations.declared d = ds at hfs
    induction hfs with
    | nil => simp
    | cons hf _ ih => exact List.forall_mem_cons.2 ⟨(Declarations.isIdentifier_iff _).2 hf.name.2, ih⟩

/-- a function of a library as its module lists it: with its own description, and named by an identifier -/
def Listed (info : FunctionInfo) (call : NativeCall) : Prop :=
  ∃ f : ExportedFunction, call = .plugin f ∧ info = f.info ∧ isIdentifier f.name = true

/-- A library lists its functions with their own descriptions, and all are named by identifiers. -/
theorem openPlugin_describes (path : String) (b : Binary) : Describes Listed (.ok (b.openPlugin path)) := by
  intro m fs hm hfs f hf info hinfo
  have hopen : b.openPlugin path = .ok m := Except.ok.inj hm
  unfold Binary.openPlugin at hopen
  split at hopen
  · cases hopen
  · cases hopen
  · split at hopen
    · cases hopen
    · next hread =>
      cases hopen
      cases hfs
      obtain ⟨g, hg, rfl⟩ := List.mem_map.1 hf
      cases hinfo
      exact ⟨g, rfl, rfl, read_identifiers hread g hg⟩

/-- The entry of a library's function, under the function's own name. -/
def Exported (name : String) (entry : Registered) (f : ExportedFunction) : Prop :=
  f.name = name ∧ isIdentifier name = true ∧ ∃ source id, entry = Registry.entry name f.info (.plugin f) source id

/-- **What loading adds** to a registry are functions of libraries, each under its own name. -/
theorem load_exported (enabled reportConflicts : Bool) {source : PluginSource} {roots : List String} (stock : Stock)
    (hsource : ∀ c ∈ (source roots).candidates, ∃ b : Binary, c.2 = .ok (b.openPlugin c.1)) {name : String}
    {entry : Registered} (hnew : stock.registry.get? name = none)
    (h : (loadPlugins enabled reportConflicts source roots stock).stock.registry.get? name = some entry) :
    ∃ f, Exported name entry f := by
  have hkeep : EntryKeeps Listed fun r => ∀ x e, stock.registry.get? x = none → r.get? x = some e →
      ∃ f, Exported x e f := by
    rintro r r' info call source id ⟨f, rfl, rfl, hname⟩ hr hregister x e hnew he
    obtain ⟨-, -, hget⟩ := register_eq_ok hregister
    rw [hget] at he
    split at he
    · next hx =>
      cases he
      subst hx
      exact ⟨f, rfl, hname, source, id, rfl⟩
    · exact hr x e hnew he
  refine load_keeps_described hkeep enabled reportConflicts (fun c hc => ?_) ?_ name entry hnew h
  · obtain ⟨b, hb⟩ := hsource c hc
    rw [hb]
    exact openPlugin_describes c.1 b
  · intro x e hnone he
    rw [hnone] at he
    cases he

/-! ## Calls -/

/-- the words of an argument list, from after the parenthesis that opens it -/
def argumentWords : List Value → List (List Char)
  | [] => [[')']]
  | [v] => [v.text.toList, [')']]
  | v :: vs => v.text.toList :: [','] :: argumentWords vs

/-- the script that calls a function by its name -/
def callText (name : String) (args : List Value) : String :=
  String.ofList (name.toList ++ spaced (['('] :: argumentWords args))

/-- literals, one for each value -/
def Literals (xs : List Expr) (vs : List Value) : Prop :=
  List.Forall₂ (fun x v => ∃ span l, x = ReadBack.literalExpr span l ∧ v = ReadBack.valueOf l) xs vs

theorem literals_heights {xs : List Expr} {vs : List Value} (h : Literals xs vs) : Expr.heights xs ≤ 1 := by
  induction h with
  | nil => exact Nat.zero_le 1
  | cons hx _ ih =>
    obtain ⟨span, l, rfl, -⟩ := hx
    have hself : (ReadBack.literalExpr span l).height ≤ 1 := by cases l <;> simp [ReadBack.literalExpr, Expr.height]
    rw [Expr.heights]
    exact Nat.max_le.2 ⟨hself, ih⟩

theorem literals_evaluate (invoke : Invoke) (s : Scope) (id : Nat) {xs : List Expr} {vs : List Value}
    (h : Literals xs vs) : evaluateAll invoke s xs id = .ok (vs, id) := by
  induction h with
  | nil => rfl
  | cons hx _ ih =>
    obtain ⟨span, l, rfl, rfl⟩ := hx
    rw [evaluateAll, CallStack.bind_apply, ReadBack.evaluate_literal]
    simp only [CallStack.bind_apply, ih]
    rfl

theorem tail_spelled (vs : List Value) : ∀ (v : Value) (pos : Nat), (∀ u ∈ v :: vs, Numbers.Number u) →
    ∃ ts xs n close, Spells false pos (argumentWords (v :: vs)) ts ∧ ArgumentTail n ts xs close ∧ n ≤ 1 ∧
      Literals xs (v :: vs) ∧ ∀ t ∈ ts, t.isSeparator = false := by
  induction vs with
  | nil =>
    intro v pos hvs
    obtain ⟨l, rfl, hw, hread⟩ := ReadBack.number_literal (hvs v (List.mem_singleton_self v))
    refine ⟨_, _, _, _, .cons hw (ReadBack.number_not_startsBlank hw) (ReadBack.ofLexeme_number hread pos)
      (.cons .rightParen (not_startsBlank_of_ne (by decide)) rfl (.nil _ _)),
      .last (called_whole (.uncalled (ReadBack.literal_phrase rfl))) rfl, le_rfl,
      .cons ⟨_, l, rfl, rfl⟩ .nil, ?_⟩
    simp [Token.isSeparator, TokenKind.isSeparator]
  | cons w vs ih =>
    intro v pos hvs
    obtain ⟨hv, hrest⟩ := List.forall_mem_cons.1 hvs
    obtain ⟨l, rfl, hw, hread⟩ := ReadBack.number_literal hv
    obtain ⟨ts, xs, n, close, hspells, htail, hn, hliterals, hseparators⟩ := ih w _ hrest
    refine ⟨_, _, _, _, .cons hw (ReadBack.number_not_startsBlank hw) (ReadBack.ofLexeme_number hread pos)
      (.cons .comma (not_startsBlank_of_ne (by decide)) rfl hspells),
      .more (called_whole (.uncalled (ReadBack.literal_phrase rfl))) rfl htail, Nat.max_le.2 ⟨le_rfl, hn⟩,
      .cons ⟨_, l, rfl, rfl⟩ hliterals, ?_⟩
    simpa [Token.isSeparator, TokenKind.isSeparator] using hseparators

/-- **Arguments** that are numbers are read as their literals. -/
theorem arguments_spelled {vs : List Value} (hvs : ∀ v ∈ vs, Numbers.Number v) (pos : Nat) :
    ∃ ts xs n close, Spells false pos (argumentWords vs) ts ∧ Arguments n ts xs close ∧ n ≤ 1 ∧ Literals xs vs ∧
      ∀ t ∈ ts, t.isSeparator = false := by
  cases vs with
  | nil =>
    refine ⟨_, _, _, _, .cons .rightParen (not_startsBlank_of_ne (by decide)) rfl (.nil _ _), .empty rfl, Nat.zero_le 1,
      .nil, ?_⟩
    simp [Token.isSeparator, TokenKind.isSeparator]
  | cons v vs =>
    obtain ⟨ts, xs, n, close, hspells, htail, hrest⟩ := tail_spelled vs v pos hvs
    exact ⟨ts, xs, n, close, hspells, .some htail, hrest⟩

/-- **A call's text** is the call, with the literals of its arguments. -/
theorem callText_phrase {name : String} (hname : isIdentifier name = true) (hfn : name ≠ "fn") {vs : List Value}
    (hvs : ∀ v ∈ vs, Numbers.Number v) :
    ∃ ts n span at_ xs, Token.tokenize (callText name vs) = .ok ts ∧ ts ≠ [] ∧ (∀ t ∈ ts, t.isSeparator = false) ∧
      Phrase (.chain .comparison) false n ts (.call span (.var at_ name) xs) ∧ n ≤ 1 ∧ Literals xs vs := by
  obtain ⟨ts, xs, n, close, hspells, harguments, hn, hliterals, hseparators⟩ :=
    arguments_spelled hvs (0 + byteLength name.toList + 1 + byteLength ['('] + 1)
  have hword := (isIdentifier_iff_word false name).1 hname
  have hcall : Spells false 0 (name.toList :: ['('] :: argumentWords vs) _ :=
    .cons hword (name_not_startsBlank hword) (ofLexeme_name hfn 0)
      (.cons .leftParen (not_startsBlank_of_ne (by decide)) rfl hspells)
  have hphrase : ∀ at_ span : Span, Phrase .called false (max 0 n) ([⟨.name name, at_⟩] ++ ⟨.leftParen, span⟩ :: ts)
      (.call (at_.cover close) (.var at_ name) xs) :=
    fun at_ span => .call (.uncalled (.name rfl)) rfl harguments
  refine ⟨_, _, _, _, _, hcall.tokenize, by simp, ?_, called_whole (hphrase _ _),
    Nat.max_le.2 ⟨Nat.zero_le 1, hn⟩, hliterals⟩
  simpa [Token.isSeparator, TokenKind.isSeparator] using hseparators

theorem callWith_entry {f : ExportedFunction} (name : String) (source : Source) (id : Nat) (invoke : Invoke)
    {vs : List Value} (hcount : vs.length = f.arity) :
    (Registry.entry name f.info (.plugin f) source id).value.callWith invoke vs = Eval.lift (f.call vs) := by
  have haccepts : (Registry.entry name f.info (.plugin f) source id).value.arity.accepts vs.length = true := by
    rw [hcount]
    exact beq_self_eq_true f.arity
  rw [FunctionValue.callWith_eq, if_pos haccepts]
  rfl

/-- **A call of a registered function** with numbers, by its name, gives what the function gives. -/
theorem run_call (e : Engine) {table : Bindings Value} {name : String} {entry : Registered} {f : ExportedFunction}
    (hf : Exported name entry f) (hfn : name ≠ "fn") (hentry : e.registry.get? name = some entry)
    (hfree : table.get? name = none) {vs : List Value} (hvs : ∀ v ∈ vs, Numbers.Number v)
    (hcount : vs.length = f.arity) :
    ∃ step span, e.run (callText name vs) table = .ok ([step], table, e) ∧
      step.output = (f.call vs).mapError fun err => .eval 1 ⟨err, span⟩ := by
  obtain ⟨-, hname, source, id, rfl⟩ := hf
  obtain ⟨ts, n, span, at_, xs, htokens, hne, hseparators, hphrase, hn, hliterals⟩ := callText_phrase hname hfn hvs
  have hcallee : (Scope.global table e.registry).callee name =
      .ok (Registry.entry name f.info (.plugin f) source id).value := by
    simp [Scope.callee, Scope.local?, Scope.global, hfree, Registry.function?, hentry]
  have hvalue : valueOf e.registry table e.nextId (.call span (.var at_ name) xs) =
      ((f.call vs).map fun v => (v, e.nextId)).mapError fun err => ⟨err, span⟩ := by
    simp only [valueOf, evaluate, CallStack.bind_apply, hcallee, Eval.located, Eval.lift,
      literals_evaluate _ _ e.nextId hliterals, callWith_entry name source id _ hcount]
    cases f.call vs <;> rfl
  have hrun := run_piece e table htokens hne hseparators
  have hheight : (Expr.call span (.var at_ name) xs).height ≤ maxDepth := by
    have := literals_heights hliterals
    simp only [Expr.height, maxDepth]
    omega
  rw [judge_expression table e.registry e.nextId hphrase (hn.trans (by decide)) hheight, hvalue] at hrun
  cases hf : f.call vs with
  | ok v =>
    rw [hf] at hrun
    exact ⟨_, span, hrun, rfl⟩
  | error err =>
    rw [hf] at hrun
    exact ⟨_, span, hrun, rfl⟩

/-! ## Main result -/

/-- **What is registered can be called by its name**, unless the name is `fn`. The loader and the lexer agree on all
other names: each is an identifier for the loader exactly if its text is a single name in a script. No script has the
name `fn`. For every engine and all plugin libraries, a function that loading adds stands under its own name, an
identifier. Where the name is not `fn` and no variable has it, the script that writes it in front of as many numbers as
the function takes has exactly one step, whose output is that of the function. -/
theorem names_callable (e : Engine) {source : PluginSource}
    (hsource : ∀ c ∈ (source e.roots).candidates, ∃ b : Binary, c.2 = .ok (b.openPlugin c.1)) (name : String) :
    ((isIdentifier name = true ↔ ∃ span, Token.tokenize name = .ok [⟨.name name, span⟩]) ↔ name ≠ "fn") ∧
    (name = "fn" → ∀ script ts, Token.tokenize script = .ok ts → ∀ t ∈ ts, t.kind ≠ .name name) ∧
    ∀ entry, e.base.get? name = none → (e.reload source).1.registry.get? name = some entry →
      ∃ f : ExportedFunction, f.name = name ∧ isIdentifier name = true ∧ entry.call = .plugin f ∧
        (name ≠ "fn" → ∀ (table : Bindings Value) (vs : List Value), table.get? name = none →
          (∀ v ∈ vs, Numbers.Number v) → vs.length = f.arity →
          ∃ step span, (e.reload source).1.run (callText name vs) table = .ok ([step], table, (e.reload source).1) ∧
            step.output = (f.call vs).mapError fun err => .eval 1 ⟨err, span⟩) := by
  refine ⟨?_, ?_, ?_⟩
  · rw [tokenize_name]
    constructor
    · rintro h rfl
      exact (h.1 (by decide)).2 rfl
    · intro hfn
      simp [hfn]
  · rintro hfn script ts htokens t ht hkind
    exact (tokens_named htokens t ht name hkind).2 hfn
  · intro entry hnew hentry
    obtain ⟨f, hf⟩ := load_exported e.config.plugins.enabled e.config.plugins.reportConflicts ⟨e.base, e.nextId⟩ hsource
      hnew hentry
    have hcall : entry.call = .plugin f := by
      obtain ⟨-, -, _, _, rfl⟩ := hf
      rfl
    refine ⟨f, hf.1, hf.2.1, hcall, ?_⟩
    intro hfn table vs hfree hvs hcount
    exact run_call _ hf hfn hentry hfree hvs hcount

/-- the one library that is found -/
def singleLibrary (declaration : Declaration) : PluginSource := fun _ =>
  ⟨[], [("a.psplugin.so", .ok ((Binary.library (some (some declaration))).openPlugin "a.psplugin.so"))]⟩

theorem singleLibrary_opens (declaration : Declaration) (roots : List String) :
    ∀ c ∈ (singleLibrary declaration roots).candidates, ∃ b : Binary, c.2 = .ok (b.openPlugin c.1) := by
  simp [singleLibrary]

/-- an engine with the demonstration library -/
def demoEngine : Engine := (LineByLine.bareEngine.reload (singleLibrary Demo.declaration)).1

/-- the step function of the demonstration library -/
def demoStep : ExportedFunction := ⟨"step", "demo", 1, Demo.step.entry⟩

/-- A script calls the function `step` of the library and gets its value. -/
theorem step_callable :
    demoEngine.registry.get? "step" = some (Registry.entry "step" demoStep.info (.plugin demoStep) (.plugin "demo") 3) ∧
      isIdentifier "step" = true ∧ callText "step" [.integer 0] = "step ( 0 )" ∧
      ∃ step, demoEngine.run "step ( 0 )" .empty = .ok ([step], .empty, demoEngine) ∧
        step.output = .ok (.float 0.5) := by
  have hentry : demoEngine.registry.get? "step" =
      some (Registry.entry "step" demoStep.info (.plugin demoStep) (.plugin "demo") 3) := by with_unfolding_all rfl
  have htext : callText "step" [.integer 0] = "step ( 0 )" := by decide +kernel
  obtain ⟨f, -, hname, hcall, hruns⟩ := (names_callable LineByLine.bareEngine
    (singleLibrary_opens Demo.declaration _) "step").2.2 _ rfl hentry
  cases hcall
  have hnumbers : ∀ v ∈ [Value.integer 0], Numbers.Number v := by simpa using .integer 0
  obtain ⟨step, span, hrun, houtput⟩ := hruns (by decide) .empty [.integer 0] rfl hnumbers rfl
  rw [htext] at hrun
  have hresult : demoStep.call [.integer 0] = .ok (.float 0.5) := by with_unfolding_all rfl
  rw [hresult] at houtput
  exact ⟨hentry, hname, htext, step, hrun, houtput⟩

/-- a library whose only function is named like the keyword -/
def keywordLibrary : Declaration := .ofFunctions "demo" [{ Demo.step with name := "fn" }]

/-- an engine with that library -/
def keywordEngine : Engine := (LineByLine.bareEngine.reload (singleLibrary keywordLibrary)).1

/-- **The keyword** passes for a function's name and is registered, while its text is no name, and a script that writes
it in front of a number is unreadable. -/
theorem keyword_registered :
    isIdentifier "fn" = true ∧ Token.tokenize "fn" = .ok [⟨.functionKeyword, ⟨0, 2⟩⟩] ∧
      ¬ (isIdentifier "fn" = true ↔ ∃ span, Token.tokenize "fn" = .ok [⟨.name "fn", span⟩]) ∧
      keywordEngine.report.loaded = [⟨"demo", "a.psplugin.so", ["fn"]⟩] ∧
      keywordEngine.run "fn(1)" .empty = .ok ([⟨1, .unreadable
        ⟨.unexpectedToken (.number (.integer 1)) .parameterName, ⟨3, 4⟩⟩⟩], .empty, keywordEngine) := by
  have hname : isIdentifier "fn" = true := by decide
  have htokens : Token.tokenize "fn" = .ok [⟨.functionKeyword, ⟨0, 2⟩⟩] := by with_unfolding_all rfl
  have hnone : ¬ ∃ span, Token.tokenize "fn" = .ok [⟨.name "fn", span⟩] :=
    fun h => ((tokenize_name "fn").1 h).2 rfl
  have hloaded : keywordEngine.report.loaded = [⟨"demo", "a.psplugin.so", ["fn"]⟩] := by decide +kernel
  refine ⟨hname, htokens, fun h => hnone (h.1 hname), hloaded, ?_⟩
  with_unfolding_all rfl

end CurveScript.Callable
