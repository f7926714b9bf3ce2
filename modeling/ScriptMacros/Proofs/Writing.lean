import ScriptMacros.Proofs.Declaration
import ScriptMacros.Proofs.FileTree
import ScriptMacros.Proofs.Grouping
import ScriptMacros.Proofs.Layering

namespace ScriptMacros

namespace Text

variable {t a b : Text}

theorem trim_padded (ha : ∀ c ∈ a, isBlank c = true) (ht : t.Trimmed) (hb : ∀ c ∈ b, isBlank c = true) :
    trim (a ++ (t ++ b)) = t := by
  rw [trim, trimStart_append_of_blank ha]
  by_cases hnil : t = []
  · subst hnil
    have hall : trimStart b = [] := List.dropWhile_eq_nil_iff.2 hb
    rw [List.nil_append, hall]
    rfl
  · have hhead : ∀ c, (t ++ b).head? = some c → isBlank c = false := by
      intro c hc
      rw [List.head?_append_of_ne_nil t hnil] at hc
      exact ht.first c hc
    have hlast : trimStart t.reverse = t.reverse := by
      apply trimStart_of_head?
      intro c hc
      rw [List.head?_reverse] at hc
      exact ht.last c hc
    rw [trimStart_of_head? hhead, trimEnd_eq_reverse, List.reverse_append,
      trimStart_append_of_blank fun c hc => hb c (List.mem_reverse.1 hc), hlast, List.reverse_reverse]

theorem trim_of_blank (h : ∀ c ∈ t, isBlank c = true) : trim t = [] := by
  simpa using trim_padded h (t := []) ⟨by simp, by simp⟩ (b := []) (by simp)

theorem trimmed_iff : t.Trimmed ↔ trim t = t := by
  constructor
  · intro h
    simpa using trim_padded (a := []) (by simp) h (b := []) (by simp)
  · intro h
    exact h ▸ trimmed_trim t

instance Trimmed.decidable (t : Text) : Decidable t.Trimmed := decidable_of_iff (trim t = t) trimmed_iff.symm

end Text

namespace PrefixMap

theorem keys_put (m : PrefixMap) (virtual real : Text) :
    (m.put virtual real).keys = if virtual ∈ m.keys then m.keys else m.keys ++ [virtual] := by
  have hkeys := Association.keys_put virtual real m.entries
  by_cases h : virtual ∈ m.keys
  · exact hkeys.trans (if_pos h) |>.trans (if_pos h).symm
  · exact hkeys.trans (if_neg h) |>.trans (if_neg h).symm

theorem get?_put (m : PrefixMap) (virtual real k : Text) :
    (m.put virtual real).get? k = if k = virtual then some real else m.get? k := by
  split
  · next h => exact h ▸ Association.get?_put_self k real m.entries
  · next h => exact Association.get?_put_of_ne h real m.entries

structure Collects (m : PrefixMap) (l : List (Text × Text)) : Prop where
  keys : m.keys = (l.map Prod.fst).eraseDups
  last : ∀ k, m.get? k = (l.filter fun p => p.1 = k).getLast?.map Prod.snd

theorem collects_empty : empty.Collects [] := ⟨rfl, fun _ => rfl⟩

theorem Collects.put {m : PrefixMap} {l : List (Text × Text)} (h : m.Collects l) (p : Text × Text) :
    (m.put p.1 p.2).Collects (l ++ [p]) where
  keys := by
    rw [keys_put, List.map_append, List.map_singleton, eraseDups_concat, h.keys]
    simp only [List.mem_eraseDups]
  last := by
    intro k
    rw [get?_put, List.filter_append, h.last]
    by_cases hk : k = p.1
    · subst hk
      simp
    · simp [hk, Ne.symm hk]

theorem collects_ofList (l : List (Text × Text)) : (ofList l).Collects l := by
  induction l using List.reverseRecOn with
  | nil => exact collects_empty
  | append_singleton l p ih =>
    rw [ofList, List.foldl_append]
    exact ih.put p

structure Writable (p : Text × Text) : Prop where
  equals : .char '=' ∉ p.1
  semicolon : .char ';' ∉ p.1 ∧ .char ';' ∉ p.2
  trimmed : Text.Trimmed (p.1 ++ .char '=' :: p.2)

instance Writable.decidable (p : Text × Text) : Decidable (Writable p) :=
  decidable_of_iff (.char '=' ∉ p.1 ∧ (.char ';' ∉ p.1 ∧ .char ';' ∉ p.2) ∧ Text.Trimmed (p.1 ++ .char '=' :: p.2))
    ⟨fun h => ⟨h.1, h.2.1, h.2.2⟩, fun h => ⟨h.equals, h.semicolon, h.trimmed⟩⟩

inductive Writes : List (Text × Text) → List Text → Prop
  | nil : Writes [] []
  | blank {pairs entry entries} : (∀ c ∈ entry, Text.isBlank c = true) → Writes pairs entries →
      Writes pairs (entry :: entries)
  | pair {virtual real pairs entries} (before after) : (∀ c ∈ before, Text.isBlank c = true) →
      (∀ c ∈ after, Text.isBlank c = true) → Writes pairs entries →
      Writes ((virtual, real) :: pairs) ((before ++ ((virtual ++ .char '=' :: real) ++ after)) :: entries)

variable {virtual real before after entry : Text} {pairs : List (Text × Text)} {entries : List Text} {m : PrefixMap}

theorem addPair_blank (h : ∀ c ∈ entry, Text.isBlank c = true) (m : PrefixMap) : m.addPair entry = .ok m :=
  if_pos (Text.trim_of_blank h)

theorem addPair_padded (hbefore : ∀ c ∈ before, Text.isBlank c = true) (hafter : ∀ c ∈ after, Text.isBlank c = true)
    (h : Writable (virtual, real)) (m : PrefixMap) :
    m.addPair (before ++ ((virtual ++ .char '=' :: real) ++ after)) = .ok (m.put virtual real) := by
  rw [addPair, Text.trim_padded hbefore h.trimmed hafter]
  dsimp only
  rw [if_neg (by simp), Text.cutAt?_append h.equals]

theorem Writes.foldlM_addPair (h : Writes pairs entries) (hpairs : ∀ p ∈ pairs, Writable p) (m : PrefixMap) :
    entries.foldlM addPair m = .ok (pairs.foldl (fun m p => m.put p.1 p.2) m) := by
  induction h generalizing m with
  | nil => rfl
  | blank hblank _ ih =>
    rw [List.foldlM_cons, addPair_blank hblank]
    exact ih hpairs m
  | pair before after hbefore hafter _ ih =>
    obtain ⟨hpair, hpairs⟩ := List.forall_mem_cons.1 hpairs
    rw [List.foldlM_cons, addPair_padded hbefore hafter hpair]
    exact ih hpairs _

theorem Writes.semicolon_notMem (h : Writes pairs entries) (hpairs : ∀ p ∈ pairs, Writable p) :
    ∀ entry ∈ entries, .char ';' ∉ entry := by
  have hblank : ∀ {t : Text}, (∀ c ∈ t, Text.isBlank c = true) → .char ';' ∉ t :=
    fun ht hm => absurd (ht _ hm) (by decide)
  induction h with
  | nil => simp
  | blank he _ ih => exact List.forall_mem_cons.2 ⟨hblank he, ih hpairs⟩
  | pair before after hbefore hafter _ ih =>
    obtain ⟨hpair, hpairs⟩ := List.forall_mem_cons.1 hpairs
    refine List.forall_mem_cons.2 ⟨?_, ih hpairs⟩
    simp [hblank hbefore, hblank hafter, hpair.semicolon]

end PrefixMap

namespace Environment

/-- Prefixes that are written in the variable are the prefixes of the settings, in their order. -/
theorem options_written {pairs : List (Text × Text)} {entries : List Text}
    (hpairs : ∀ p ∈ pairs, PrefixMap.Writable p) (h : PrefixMap.Writes pairs entries) (maxExpansions : Option Text) :
    ∃ m : PrefixMap, m.Collects pairs ∧
      options ⟨some (List.intercalate [';'] entries), maxExpansions⟩ =
        .ok { prefixes := m, limit := limit maxExpansions } := by
  refine ⟨.ofList pairs, PrefixMap.collects_ofList _, ?_⟩
  have hparse : PrefixMap.parsePairs (([CodePoint.char ';'].intercalate entries).splitOn (.char ';')) =
      .ok (.ofList pairs) := by
    by_cases hnil : entries = []
    -- What no entries write is read as one blank entry.
    · subst hnil
      cases h
      decide
    · rw [List.splitOn_intercalate (CodePoint.char ';') (h.semicolon_notMem hpairs) hnil]
      exact h.foldlM_addPair hpairs .empty
  rw [options]
  simp [hparse]

theorem options_written_repeated :
    let pairs := [("\\A\\", "/a =b c"), ("", ""), ("\\A\\", "x"), ("v", "")].map fun (v, r) => (v.toText, r.toText)
    let entries := ["  ", "\t\\A\\=/a =b c ", "", "=", " \\A\\=x", "v=\n"].map String.toText
    (∀ p ∈ pairs, PrefixMap.Writable p) ∧ PrefixMap.Writes pairs entries ∧
      ∃ m : PrefixMap, m.Collects pairs ∧
        options ⟨some "  ;\t\\A\\=/a =b c ;;=; \\A\\=x;v=\n".toText, some "7".toText⟩ =
          .ok { prefixes := m, limit := .count 7 } ∧
        m.keys = ["\\A\\", "", "v"].map (fun k => k.toText) ∧
        m.get? ("\\A\\".toText) = some ("x".toText) := by
  intro pairs entries
  have hpairs : ∀ p ∈ pairs, PrefixMap.Writable p := by decide +kernel
  have hblank : ∀ t : Text, t.all Text.isBlank = true → ∀ c ∈ t, Text.isBlank c = true := fun _ => List.all_eq_true.1
  have hwrites : PrefixMap.Writes pairs entries :=
    .blank (hblank _ (by decide)) <| .pair ['\t'] [' '] (hblank _ (by decide)) (hblank _ (by decide)) <|
      .blank (hblank _ (by decide)) <| .pair [] [] (hblank _ (by decide)) (hblank _ (by decide)) <|
      .pair [' '] [] (hblank _ (by decide)) (hblank _ (by decide)) <|
      .pair [] ['\n'] (hblank _ (by decide)) (hblank _ (by decide)) .nil
  obtain ⟨m, hm, hoptions⟩ := options_written hpairs hwrites (some "7".toText)
  refine ⟨hpairs, hwrites, m, hm, hoptions, hm.keys.trans (by decide +kernel), (hm.last _).trans (by decide +kernel)⟩

end Environment

end ScriptMacros
