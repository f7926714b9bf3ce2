import ScriptMacros.Include
import ScriptMacros.Proofs.Layering

namespace ScriptMacros

namespace PrefixMap

variable {m upper : PrefixMap} {path mapped : Text}

inductive Replaces (m : PrefixMap) : Text → Text → Prop
  | first {before after : List (Text × Text)} {virtual real rest : Text} :
      m.entries = before ++ (virtual, real) :: after → (∀ e ∈ before, ¬e.1 <+: virtual ++ rest) →
      Replaces m (virtual ++ rest) (real ++ rest)
  | none {path : Text} : (∀ e ∈ m.entries, ¬e.1 <+: path) → Replaces m path path

def Starts (m : PrefixMap) (path : Text) : Prop := ∃ e ∈ m.entries, e.1 <+: path

instance Starts.decidable (m : PrefixMap) (path : Text) : Decidable (m.Starts path) :=
  decidable_of_iff ((m.entries.any fun e => e.1.isPrefixOf path) = true) <| by
    simp only [Starts, List.any_eq_true, List.isPrefixOf_iff_prefix]

theorem map_after?_eq_none {e : Text × Text} :
    (Text.after? e.1 path).map (e.2 ++ ·) = none ↔ ¬e.1 <+: path := by
  rw [Option.map_eq_none_iff, Text.after?_eq_none, List.isPrefixOf_iff_prefix]

theorem replaces_resolve (m : PrefixMap) (path : Text) : m.Replaces path (m.resolve path) := by
  rw [resolve]
  cases h : m.entries.findSome? fun e => (Text.after? e.1 path).map (e.2 ++ ·) with
  | none =>
    rw [List.findSome?_eq_none_iff] at h
    exact .none fun e he => map_after?_eq_none.1 (h e he)
  | some mapped =>
    obtain ⟨before, ⟨virtual, real⟩, after, hentries, hsome, hbefore⟩ := List.findSome?_eq_some_iff.1 h
    obtain ⟨rest, hrest, rfl⟩ := Option.map_eq_some_iff.1 hsome
    obtain rfl := Text.after?_eq_some.1 hrest
    exact .first hentries fun e he => map_after?_eq_none.1 (hbefore e he)

theorem Replaces.resolve_eq (h : m.Replaces path mapped) : m.resolve path = mapped := by
  rw [resolve]
  cases h with
  | @first before after virtual real rest hentries hbefore =>
    have hfirst : m.entries.findSome? (fun e => (Text.after? e.1 (virtual ++ rest)).map (e.2 ++ ·)) =
        some (real ++ rest) := by
      refine List.findSome?_eq_some_iff.2 ⟨before, _, after, hentries, ?_, ?_⟩
      · rw [Text.after?_eq_some.2 rfl, Option.map_some]
      · exact fun e he => map_after?_eq_none.2 (hbefore e he)
    exact congrArg (Option.getD · _) hfirst
  | none hnone =>
    have hnothing : m.entries.findSome? (fun e => (Text.after? e.1 path).map (e.2 ++ ·)) = .none :=
      List.findSome?_eq_none_iff.2 fun e he => map_after?_eq_none.2 (hnone e he)
    exact congrArg (Option.getD · _) hnothing

theorem replaces_iff : m.Replaces path mapped ↔ m.resolve path = mapped :=
  ⟨Replaces.resolve_eq, fun h => h ▸ m.replaces_resolve path⟩

theorem Replaces.above (h : upper.Replaces path mapped) (hs : upper.Starts path) (lower : PrefixMap) :
    (upper.above lower).Replaces path mapped := by
  cases h with
  | @first before after virtual real rest hentries hbefore =>
    have hboth : (upper.above lower).entries =
        before ++ (virtual, real) :: (after ++ lower.entries.filter fun e => e.1 ∉ upper.keys) := by
      rw [entries_above, hentries, List.append_assoc, List.cons_append]
    exact .first hboth hbefore
  | none hnone =>
    obtain ⟨e, he, hp⟩ := hs
    exact absurd hp (hnone e he)

theorem Replaces.under {lower : PrefixMap} (h : lower.Replaces path mapped) (hs : ¬upper.Starts path) :
    (upper.above lower).Replaces path mapped := by
  have hupper : ∀ e ∈ upper.entries, ¬e.1 <+: path := fun e he hp => hs ⟨e, he, hp⟩
  cases h with
  | @first before after virtual real rest hentries hbefore =>
    have hkept : virtual ∉ upper.keys := by
      intro hk
      obtain ⟨e, he, rfl⟩ := List.mem_map.1 hk
      exact hupper e he (List.prefix_append _ rest)
    have hboth : (upper.above lower).entries = (upper.entries ++ before.filter fun e => e.1 ∉ upper.keys) ++
        (virtual, real) :: after.filter fun e => e.1 ∉ upper.keys := by
      rw [entries_above, hentries, List.filter_append, List.filter_cons_of_pos (by simpa using hkept),
        List.append_assoc]
    refine .first hboth fun e he => ?_
    rcases List.mem_append.1 he with he | he
    · exact hupper e he
    · exact hbefore e (List.mem_filter.1 he).1
  | none hnone =>
    refine .none fun e he => ?_
    rw [entries_above] at he
    rcases List.mem_append.1 he with he | he
    · exact hupper e he
    · exact hnone e (List.mem_filter.1 he).1

theorem resolve_above (upper lower : PrefixMap) (path : Text) :
    (upper.above lower).resolve path = if upper.Starts path then upper.resolve path else lower.resolve path := by
  split
  · next hs => exact ((upper.replaces_resolve path).above hs lower).resolve_eq
  · next hs => exact ((lower.replaces_resolve path).under hs).resolve_eq

theorem above_assoc (top middle bottom : PrefixMap) :
    (top.above middle).above bottom = top.above (middle.above bottom) := by
  apply entries_inj
  have hkeys : ∀ k, k ∉ (top.above middle).keys ↔ k ∉ top.keys ∧ k ∉ middle.keys := by
    intro k
    rw [keys_above, List.mem_append, List.mem_filter, not_or]
    simp only [decide_eq_true_eq, not_and]
    exact ⟨fun h => ⟨h.1, fun hk => h.2 hk h.1⟩, fun h => ⟨h.1, fun hk => absurd hk h.2⟩⟩
  rw [entries_above, entries_above, entries_above, entries_above, List.filter_append, List.filter_filter,
    List.append_assoc]
  congr 2
  apply List.filter_congr
  intro e _
  rw [← Bool.decide_and]
  exact decide_eq_decide.2 (hkeys e.1)

theorem above_self (m : PrefixMap) : m.above m = m := by
  apply entries_inj
  have hnew : (m.entries.filter fun e => e.1 ∉ m.keys) = [] := by
    rw [List.filter_eq_nil_iff]
    intro e he
    exact fun hnew => of_decide_eq_true hnew (List.mem_map.2 ⟨e, he, rfl⟩)
  rw [entries_above, hnew, List.append_nil]

end PrefixMap

theorem Include.resolve_congr {m m' : PrefixMap} {requested : Text}
    (h : m.resolve requested = m'.resolve requested) (tree : FileTree) (source : Text) :
    resolve m tree requested source = resolve m' tree requested source := by
  rw [resolve, resolve, h]

namespace Options

theorem limitOn?_eq_none_iff (fields : List (Text × Json)) (l l' : Limit) :
    limitOn? fields l = none ↔ limitOn? fields l' = none := by
  rw [limitOn?, limitOn?]
  generalize setting? fields "maxExpansions" "max_expansions" = v
  rcases v with _ | v
  · simp
  · cases v <;> simp

theorem prefixes_fromFields (path : Text) (fields : List (Text × Json)) (base : Options) :
    (fromFields path fields base).map (·.prefixes) =
      (fromFields path fields {}).map fun o => o.prefixes.above base.prefixes := by
  rw [fromFields_eq, fromFields_eq]
  cases written? fields with
  | none => rfl
  | some written =>
    have hlimit := limitOn?_eq_none_iff fields base.limit .standard
    cases hbase : limitOn? fields base.limit with
    | none =>
      rw [hlimit.1 hbase]
      rfl
    | some limit =>
      have hsome : limitOn? fields .standard ≠ none := by
        rw [Ne, ← hlimit, hbase]
        exact Option.some_ne_none limit
      obtain ⟨limit', hlimit'⟩ := Option.ne_none_iff_exists'.1 hsome
      rw [hlimit']
      rfl

theorem prefixes_fromFile (tree : FileTree) (path : Text) (base : Options) :
    (fromFile tree path base).map (·.prefixes) =
      (fromFile tree path {}).map fun o => o.prefixes.above base.prefixes := by
  rw [fromFile_eq, fromFile_eq]
  cases fieldsIn tree path with
  | error f => rfl
  | ok fields => exact prefixes_fromFields _ fields base

/-- A layer on top of others resolves the paths that its prefixes start, just as it does alone, and leaves all others to
the settings below it. -/
theorem merged_resolves (lower upper : Options) :
    (∀ m path mapped, PrefixMap.resolve m path = mapped ↔ m.Replaces path mapped) ∧
    (∀ path, (lower.merged (some upper)).prefixes.resolve path =
      if upper.prefixes.Starts path then upper.prefixes.resolve path else lower.prefixes.resolve path) ∧
    ∀ tree requested source, Include.resolve (lower.merged (some upper)).prefixes tree requested source =
      if upper.prefixes.Starts requested then Include.resolve upper.prefixes tree requested source
      else Include.resolve lower.prefixes tree requested source := by
  refine ⟨fun m path mapped => PrefixMap.replaces_iff.symm, PrefixMap.resolve_above _ _, ?_⟩
  intro tree requested source
  have hmapped := PrefixMap.resolve_above upper.prefixes lower.prefixes requested
  split
  · next hs => exact Include.resolve_congr (hmapped.trans (if_pos hs)) tree source
  · next hs => exact Include.resolve_congr (hmapped.trans (if_neg hs)) tree source

/-- Of two layers the prefixes of the upper one come first, then those that only the lower one has. Layers can be
grouped at will, one that is put on itself changes nothing, and a document read on top of settings has the prefixes
that it has when it is read alone and then put on top of them; it is refused in both cases or in none. -/
theorem merged_laws (a b : Options) (c : Option Options) :
    (a.merged (some b)).prefixes.entries =
      b.prefixes.entries ++ a.prefixes.entries.filter (fun e => e.1 ∉ b.prefixes.keys) ∧
    (a.merged (some b)).merged c = a.merged (some (b.merged c)) ∧
    a.merged (some a) = a ∧
    ∀ tree path, (fromFile tree path b).map (·.prefixes) =
      (fromFile tree path {}).map fun o => (b.merged (some o)).prefixes := by
  refine ⟨PrefixMap.entries_above _ _, ?_, ?_, fun tree path => prefixes_fromFile tree path b⟩
  · cases c with
    | none => rfl
    | some c => exact congrArg (fun m => { c with prefixes := m }) (PrefixMap.above_assoc _ _ _).symm
  · exact congrArg (fun m => { a with prefixes := m }) a.prefixes.above_self

end Options

end ScriptMacros
