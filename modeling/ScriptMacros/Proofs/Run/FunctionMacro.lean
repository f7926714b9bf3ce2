import ScriptMacros.Character.Digit
import ScriptMacros.Proofs.Calling
import ScriptMacros.Proofs.Pasting
import ScriptMacros.Proofs.Reading
import ScriptMacros.Run.Session

namespace ScriptMacros

def Text.IsName (t : Text) : Prop := t ≠ [] ∧ ∀ c ∈ t, c.isAlphanum = true ∨ c = '_'

instance Text.IsName.decidable (t : Text) : Decidable t.IsName :=
  decidable_of_iff (t ≠ [] ∧ t.all (fun c => c.isAlphanum || c == '_'))
    (by simp [Text.IsName, List.all_eq_true])

theorem Text.IsName.ne {t : Text} {c s : CodePoint} (h : t.IsName) (hc : c ∈ t) (hs : s.isAlphanum = false)
    (hs' : s ≠ '_') : c ≠ s := by
  rintro rfl
  rcases h.2 c hc with ha | ha
  · rw [hs] at ha
    contradiction
  · exact hs' ha

theorem Text.Letters.isName {t : Text} (h : t.Letters) : t.IsName :=
  ⟨h.1, fun c hc => Or.inl (by simp [CodePoint.isAlphanum, h.2 c hc])⟩

theorem Text.isBlank_of_isAlphanum {c : CodePoint} (h : c.isAlphanum = true ∨ c = '_') : isBlank c = false := by
  have hc : 0x21 ≤ c.toNat ∧ c.toNat < 0x80 := by
    rcases h with h | rfl
    · rcases (Bool.or_eq_true _ _).mp h with ha | hd
      · have hbounds := CodePoint.bounds_of_isAlpha ha
        omega
      · have hbounds := CodePoint.bounds_of_isDigit hd
        omega
    · decide
  simp [isBlank]
  omega

namespace Directive

theorem ofLine?_define {value : Text} (h : .char '\n' ∉ value) :
    ofLine? ("#define ".toText ++ value) = some ⟨"define".toText, value⟩ := by
  have hline : "#define ".toText ++ value = .char '#' :: ("define".toText ++ .char ' ' :: value) := by simp
  rw [hline, ofLine?_word (by decide) h]

end Directive

namespace Declaration

theorem parse_group {name inside rest : Text} (hname : name ≠ []) (hspace : .char ' ' ∉ name) (hopen : .char '(' ∉ name)
    (hinside : Bracket.Balanced inside) :
    parse (name ++ .char '(' :: (inside ++ .char ')' :: .char ' ' :: rest)) =
      .ok ⟨name, some (parameterNames inside), Text.trim (.char ' ' :: rest)⟩ := by
  have hdrop : (name ++ .char '(' :: (inside ++ .char ')' :: .char ' ' :: rest)).dropWhile (· = .char ' ') =
      name ++ .char '(' :: (inside ++ .char ')' :: .char ' ' :: rest) := by
    obtain ⟨c, name, rfl⟩ := List.exists_cons_of_ne_nil hname
    have hc : c ≠ ' ' := fun he => hspace (he ▸ List.mem_cons_self)
    simp [hc]
  rw [(Declares.closed hinside).parse_eq hdrop hspace hopen (by simp), if_neg hname]

theorem parameterNames_intercalate {names : List Text} (h : ∀ n ∈ names, Text.Letters n) :
    parameterNames (List.intercalate [','] names) = names := by
  rw [parameterNames]
  by_cases hn : names = []
  · subst hn
    rfl
  · have hcomma : ∀ n ∈ names, .char ',' ∉ n := fun n hm hc => (h n hm).isName.ne hc (by decide) (by decide) rfl
    have htrim : names.map Text.trim = names := by
      apply map_eq_self
      intro n hm
      apply Text.trim_eq
      intro c hc
      apply Text.isBlank_of_isAlphanum
      exact (h n hm).isName.2 c hc
    rw [List.splitOn_intercalate _ hcomma hn, htrim, List.filter_eq_self]
    intro n hm
    exact decide_eq_true (h n hm).1

end Declaration

section

variable {m : Macro} {parameters : List Text} {inside t : Text}

theorem Macro.invocation?_call (hp : m.parameters = some parameters) (hb : Bracket.Balanced inside) :
    m.invocation? (m.name ++ .char '(' :: (inside ++ [.char ')'])) =
      some ⟨0, m.name ++ .char '(' :: (inside ++ [.char ')']), [],
      substitute m.body parameters (Bracket.arguments inside)⟩ := by
  rw [invocation?_eq_some_iff hp]
  exact ⟨[], inside, [], ⟨by simp, hb⟩, fun _ _ _ _ => Nat.zero_le _, rfl⟩

theorem Expansion.expand_call {limit : Limit} {n : Nat} (hlimit : limit.allowed? = some n) (hone : 1 ≤ n)
    (hp : m.parameters = some parameters) (hb : Bracket.Balanced inside)
    (h : ¬Calls m.name (substitute m.body parameters (Bracket.arguments inside))) :
    expand [m] limit (m.name ++ .char '(' :: (inside ++ [.char ')'])) =
      .ok (substitute m.body parameters (Bracket.arguments inside)) := by
  obtain ⟨left, rfl⟩ := Nat.exists_eq_add_of_le' hone
  have hfirst : firstInvocation? [m] (m.name ++ .char '(' :: (inside ++ [.char ')'])) = some (m, ⟨0,
      m.name ++ .char '(' :: (inside ++ [.char ')']), [],
      substitute m.body parameters (Bracket.arguments inside)⟩) := by
    rw [firstInvocation?, List.findSome?_cons, Macro.invocation?_call hp hb]
    rfl
  have hlast : firstInvocation? [m] (substitute m.body parameters (Bracket.arguments inside)) = none := by
    rw [firstInvocation?, List.findSome?_cons, (Macro.invocation?_eq_none_iff hp).2 h]
    rfl
  have hne : substitute m.body parameters (Bracket.arguments inside) ≠ m.name ++ .char '(' :: (inside ++ [.char ')']) :=
    fun he => h ⟨[], inside, [], he, hb⟩
  have hresult : Invocation.result ⟨0, m.name ++ .char '(' :: (inside ++ [.char ')']), [],
      substitute m.body parameters (Bracket.arguments inside)⟩ (m.name ++ .char '(' :: (inside ++ [.char ')'])) =
        substitute m.body parameters (Bracket.arguments inside) := by
    simp [Invocation.result, Text.splice_eq]
  rw [expand, hlimit]
  dsimp only
  rw [expandWithin, hfirst]
  dsimp only
  rw [if_neg hne, hresult, expandWithin, hlast]

end

theorem sourceLines_ofLines {ls : List Text} (hne : ls ≠ []) (h : ∀ l ∈ ls, ∀ c ∈ l, InLine c) :
    sourceLines (Text.ofLines ls) = ls := by
  have hkeep : (Text.ofLines ls).filter (· ≠ .char '\r') = Text.ofLines ls := by
    rw [List.filter_eq_self]
    intro c hc
    rcases Text.mem_ofLines hc with rfl | ⟨l, hl, hm⟩
    · rfl
    · exact decide_eq_true (h l hl c hm).2.1
  rw [sourceLines, hkeep, Text.lines_ofLines hne fun l hl hn => (h l hl _ hn).1 rfl]

section

variable {name : Text} {parameters arguments : List Text} {body : Text}

theorem clean_isName (h : name.IsName) : Line.Clean name := by
  refine .of_forall fun c hc => ⟨⟨?_, ?_, ?_⟩, ?_⟩
  · exact h.ne hc (by decide) (by decide)
  · exact h.ne hc (by decide) (by decide)
  · exact h.ne hc (by decide) (by decide)
  · exact h.ne hc (by decide) (by decide)

theorem clean_definition (hname : name.IsName) (hparameters : ∀ n ∈ parameters, Text.Letters n)
    (hbody : Line.Clean body) :
    Line.Clean ("#define ".toText ++
      (name ++ .char '(' :: ([CodePoint.char ','].intercalate parameters ++ .char ')' :: .char ' ' :: body))) := by
  have hkeyword : Line.Clean ("#define".toText ++ .char ' ' :: name) :=
    (show Line.Clean "#define".toText by decide +kernel).append_cons ' ' (by decide) (clean_isName hname)
  have hlist : Line.Clean (List.intercalate [','] parameters) := by
    apply Line.Clean.intercalate ',' (by decide)
    intro n hn
    exact clean_isName (hparameters n hn).isName
  have hrest : Line.Clean ([] ++ .char ' ' :: body) :=
    (Line.Clean.of_forall (by simp)).append_cons ' ' (by decide) hbody
  have hline := hkeyword.append_cons '(' (by decide) (hlist.append_cons ')' (by decide) hrest)
  simpa using hline

theorem clean_call (hname : name.IsName) (harguments : ∀ a ∈ arguments, Line.Clean a) :
    Line.Clean (name ++ .char '(' :: ([CodePoint.char ','].intercalate arguments ++ [.char ')'])) := by
  have hlist : Line.Clean (List.intercalate [','] arguments) := Line.Clean.intercalate ',' (by decide) harguments
  have hend : Line.Clean [] := .of_forall (by simp)
  exact (clean_isName hname).append_cons '(' (by decide) (hlist.append_cons ')' (by decide) hend)

variable (p : Project) {active : List Address} (entering : Entering p active) (tagged : Bool) (place : Location)

def defined (place : Location) (tagged : Bool) (name : Text) (parameters : List Text) (body : Text) : Progress :=
  Progress.define {} place tagged
    (name ++ .char '(' :: ([CodePoint.char ','].intercalate parameters ++ .char ')' :: .char ' ' :: body))
    ⟨name, some parameters, body⟩

theorem exists_macro_defined (place : Location) (tagged : Bool) (name : Text) (parameters : List Text) (body : Text) :
    ∃ m : Macro, (defined place tagged name parameters body).macros.byLength = [m] ∧ m.name = name ∧
      m.parameters = some parameters ∧ m.body = body :=
  ⟨_, rfl, rfl, rfl, rfl⟩

theorem passLine_definition (hname : name.IsName) (hparameters : ∀ n ∈ parameters, Text.Letters n)
    (hbody : body.trim = body) (hclean : Line.Clean body) :
    p.passLine active entering tagged place
      ("#define ".toText ++
        (name ++ .char '(' :: ([CodePoint.char ','].intercalate parameters ++ .char ')' :: .char ' ' :: body))) {} =
      .ok ([], defined place tagged name parameters body) := by
  have hline := clean_definition hname hparameters hclean
  have hvalue : .char '\n' ∉
      name ++ .char '(' :: ([CodePoint.char ','].intercalate parameters ++ .char ')' :: .char ' ' :: body) := by
    intro hn
    apply (hline.inLine '\n' _).1 rfl
    exact List.mem_append_right _ hn
  have hlist : Bracket.Balanced (List.intercalate [','] parameters) := by
    apply Bracket.balanced_intercalate
    intro n hn
    have hn := (hparameters n hn).isName
    apply Bracket.balanced_of_notMem
    · exact fun hc => hn.ne hc (by decide) (by decide) rfl
    · exact fun hc => hn.ne hc (by decide) (by decide) rfl
  have htrim : Text.trim (.char ' ' :: body) = body := by
    rw [Text.trim, Text.trimStart, List.dropWhile_cons_of_pos (by decide)]
    exact hbody
  have hparse : Declaration.parse
      (name ++ .char '(' :: ([CodePoint.char ','].intercalate parameters ++ .char ')' :: .char ' ' :: body)) = _ :=
    Declaration.parse_group hname.1 (fun hc => hname.ne hc (by decide) (by decide) rfl)
      (fun hc => hname.ne hc (by decide) (by decide) rfl) hlist
  rw [Declaration.parameterNames_intercalate hparameters, htrim] at hparse
  rw [Project.passLine]
  rw [hline.normalize_eq (Text.trimStart_cons (by decide))]
  dsimp only
  rw [Directive.ofLine?_define hvalue]
  dsimp only
  rw [Project.applyDirective, Project.dispatch]
  rw [show (Directive.mk "define".toText _).kind = .define from rfl]
  dsimp only
  rw [hparse]
  rfl

structure Argument (a : Text) : Prop where
  trimmed : a.trim = a
  balanced : Bracket.Balanced a
  single : Bracket.SingleArgument a
  clean : Line.Clean a

instance Argument.decidable (a : Text) : Decidable (Argument a) :=
  decidable_of_iff (a.trim = a ∧ Bracket.Balanced a ∧ Bracket.SingleArgument a ∧ Line.Clean a)
    ⟨fun h => ⟨h.1, h.2.1, h.2.2.1, h.2.2.2⟩, fun h => ⟨h.trimmed, h.balanced, h.single, h.clean⟩⟩

theorem passLine_call (origin : Location) {n : Nat} (hlimit : p.options.limit.allowed? = some n) (hone : 1 ≤ n)
    (hname : name.IsName) (harguments : ∀ a ∈ arguments, Argument a) (hne : arguments ≠ [[]])
    (h : ¬Calls name (substitute body parameters arguments)) :
    p.passLine active entering tagged place
        (name ++ .char '(' :: ([CodePoint.char ','].intercalate arguments ++ [.char ')']))
      (defined origin tagged name parameters body) =
      .ok (substitute body parameters arguments, defined origin tagged name parameters body) := by
  have hline := clean_call hname fun a ha => (harguments a ha).clean
  have hread : Bracket.arguments (List.intercalate [','] arguments) = arguments := by
    apply Bracket.arguments_intercalate _ hne
    intro a ha
    obtain ⟨htrim, hb, hs, -⟩ := harguments a ha
    exact ⟨htrim, hb, hs⟩
  have hbalanced := Bracket.balanced_intercalate fun a ha => (harguments a ha).balanced
  obtain ⟨c, rest, rfl⟩ := List.exists_cons_of_ne_nil hname.1
  have hc := Text.isBlank_of_isAlphanum (hname.2 c List.mem_cons_self)
  have hnone :
      Directive.ofLine? (c :: rest ++ .char '(' :: ([CodePoint.char ','].intercalate arguments ++ [.char ')'])) =
        none := by
    rw [Directive.ofLine?_eq_none_iff, List.cons_append, List.head?_cons]
    intro he
    exact hname.ne List.mem_cons_self (by decide) (by decide) (Option.some.inj he)
  have hexpand : (defined origin tagged (c :: rest) parameters body).macros.expand p.options.limit
      (c :: rest ++ .char '(' :: ([CodePoint.char ','].intercalate arguments ++ [.char ')'])) =
      .ok (substitute body parameters arguments) := by
    obtain ⟨m, hm, hmname, hp, rfl⟩ := exists_macro_defined origin tagged (c :: rest) parameters body
    rw [MacroTable.expand, hm, ← hmname]
    rw [← hmname, ← hread] at h
    have he := Expansion.expand_call hlimit hone hp hbalanced h
    rwa [hread] at he
  unfold Project.passLine
  rw [hline.normalize_eq (Text.trimStart_cons hc)]
  dsimp only
  rw [hnone]
  dsimp only
  rw [hexpand]

/-- A macro with parameters is replaced, where it is called, by its body with the arguments pasted in. The only
condition on the outcome is that it does not call the macro again. -/
theorem run_function_macro (source : Text) {n : Nat} (hsource : FileTree.askSource source = .ok ())
    (hlimit : p.options.limit.allowed? = some n) (hone : 1 ≤ n) (hname : name.IsName)
    (hparameters : ∀ n ∈ parameters, Text.Letters n) (hlength : arguments.length = parameters.length)
    (hbody : body.trim = body) (hclean : Line.Clean body) (harguments : ∀ a ∈ arguments, Argument a)
    (hne : arguments ≠ [[]])
    (h : ¬Calls name (Piece.paste (Template.argument? parameters arguments) (Piece.ofText body))) :
    ∃ g, p.run source tagged
      ("#define ".toText ++ name ++ .char '(' :: ([CodePoint.char ','].intercalate parameters ++ ") ".toText ++ body) ++
        .char '\n' :: (name ++ .char '(' :: ([CodePoint.char ','].intercalate arguments ++ [.char ')']))) =
      .ok (.char '\n' :: Piece.paste (Template.argument? parameters arguments) (Piece.ofText body), g) := by
  have hpaste : substitute body parameters arguments =
      Piece.paste (Template.argument? parameters arguments) (Piece.ofText body) := by
    rw [substitute_eq_paste hparameters, hlength, List.take_length]
  have hlines : sourceLines
      ("#define ".toText ++ name ++ .char '(' :: ([CodePoint.char ','].intercalate parameters ++ ") ".toText ++ body) ++
        .char '\n' :: (name ++ .char '(' :: ([CodePoint.char ','].intercalate arguments ++ [.char ')']))) =
      ["#define ".toText ++
          (name ++ .char '(' :: ([CodePoint.char ','].intercalate parameters ++ .char ')' :: .char ' ' :: body)),
        name ++ .char '(' :: ([CodePoint.char ','].intercalate arguments ++ [.char ')'])] := by
    rw [← sourceLines_ofLines (List.cons_ne_nil _ _) ?_]
    · congr 1
      simp [Text.ofLines]
    · intro l hl
      rcases List.mem_cons.1 hl with rfl | hl
      · exact (clean_definition hname hparameters hclean).inLine
      · obtain rfl := List.mem_singleton.1 hl
        exact (clean_call hname fun a ha => (harguments a ha).clean).inLine
  have hfirst := passLine_definition p (p.nested [(Path.ofText source).address p.tree.here]) tagged
    ⟨source, (1 : Nat), 1⟩ hname hparameters hbody hclean
  have hsecond := passLine_call p (p.nested [(Path.ofText source).address p.tree.here]) tagged
    ⟨source, (1 + 1 : Nat), 1⟩ ⟨source, (1 : Nat), 1⟩ hlimit hone hname harguments hne (hpaste ▸ h)
  refine ⟨defined ⟨source, (1 : Nat), 1⟩ tagged name parameters body, ?_⟩
  rw [Project.run, Project.runLines]
  rw [hlines, hsource]
  dsimp only
  rw [Project.pass_eq, Project.passLines, hfirst]
  dsimp only
  rw [Project.passLines, hsecond]
  dsimp only
  rw [Project.passLines, hpaste]
  simp [Except.map, Text.ofLines]

theorem run_function_macro_glued :
    let name : Text := "F_1".toText
    let parameters : List Text := ["x".toText, "Y".toText]
    let arguments : List Text := ["f(a, (b))".toText, []]
    let body : Text := "#x##Y xY ###x(Y) 1x # )".toText
    let p : Project := { options := { limit := .count 1 }, tree := ⟨[], []⟩ }
    FileTree.askSource ("s".toText) = .ok () ∧ p.options.limit.allowed? = some 1 ∧ name.IsName ∧
      (∀ n ∈ parameters, Text.Letters n) ∧ arguments.length = parameters.length ∧ body.trim = body ∧ Line.Clean body ∧
      (∀ a ∈ arguments, Argument a) ∧ arguments ≠ [[]] ∧
      ∃ g, p.run ("s".toText) false "#define F_1(x,Y) #x##Y xY ###x(Y) 1x # )\nF_1(f(a, (b)),)".toText =
        .ok ("\n\"f(a, (b))\" xY #f(a, (b))() 1f(a, (b)) # )".toText, g) := by
  intro name parameters arguments body p
  have hsource : FileTree.askSource ("s".toText) = .ok () := by decide +kernel
  have hname : name.IsName := by decide
  have hparameters : ∀ n ∈ parameters, Text.Letters n := by decide
  have hlength : arguments.length = parameters.length := rfl
  have hbody : body.trim = body := by decide +kernel
  have hclean : Line.Clean body := by decide +kernel
  have harguments : ∀ a ∈ arguments, Argument a := by decide +kernel
  have hne : arguments ≠ [[]] := by decide
  have hpaste : Piece.paste (Template.argument? parameters arguments) (Piece.ofText body) =
      "\"f(a, (b))\" xY #f(a, (b))() 1f(a, (b)) # )".toText := by
    decide +kernel
  have hcalls : ¬Calls name (Piece.paste (Template.argument? parameters arguments) (Piece.ofText body)) := by
    rintro ⟨before, inside, after, he, -⟩
    have hF : .char 'F' ∈ Piece.paste (Template.argument? parameters arguments) (Piece.ofText body) := by
      rw [he]
      simp [name]
    rw [hpaste] at hF
    exact absurd hF (by decide)
  obtain ⟨g, hrun⟩ := run_function_macro p false ("s".toText) hsource rfl (Nat.le_refl 1) hname hparameters
    hlength hbody hclean harguments hne hcalls
  rw [hpaste] at hrun
  exact ⟨hsource, rfl, hname, hparameters, hlength, hbody, hclean, harguments, hne, g, hrun⟩

end

end ScriptMacros
