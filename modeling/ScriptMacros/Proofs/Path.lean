import ScriptMacros.Include
import ScriptMacros.Proofs.Splitting

namespace ScriptMacros

structure IsName (n : Text) : Prop where
  ne_nil : n ≠ []
  ne_stay : n ≠ Path.stay
  slash_notMem : CodePoint.char '/' ∉ n

/-- An address whose text leads straight to it. -/
def Address.Canonical (a : Address) : Prop := ∀ n ∈ a, IsName n ∧ n ≠ Path.up

namespace Path

variable {p q : Path} {here : Address} {n : Text}

def Sound (p : Path) : Prop := ∀ n ∈ p.names, IsName n

theorem sound_ofText (t : Text) : (ofText t).Sound := by
  intro n hn
  obtain ⟨hs, hn⟩ := List.mem_filter.1 hn
  obtain ⟨hnil, hstay⟩ := of_decide_eq_true hn
  exact ⟨hnil, hstay, separator_notMem hs⟩

theorem infix_of_mem_names {t : Text} (hn : n ∈ (ofText t).names) : n <:+: t :=
  infix_of_mem_splitOn (List.mem_filter.1 hn).1

theorem filter_names {l : List Text} (h : ∀ n ∈ l, IsName n) : l.filter (fun n => n ≠ [] ∧ n ≠ stay) = l := by
  rw [List.filter_eq_self]
  intro n hn
  exact decide_eq_true ⟨(h n hn).ne_nil, (h n hn).ne_stay⟩

theorem takeWhile_slash (hn : IsName n) (t : Text) :
    (n ++ t).takeWhile (· = .char '/') = [] := by
  cases n with
  | nil => exact absurd rfl hn.ne_nil
  | cons c n =>
    have hc : c ≠ .char '/' := fun he => hn.slash_notMem (by simp [he])
    simp [hc]

theorem takeWhile_intercalate {l : List Text} (h : ∀ n ∈ l, IsName n) :
    (([.char '/'] : Text).intercalate l).takeWhile (· = .char '/') = [] := by
  cases l with
  | nil => rfl
  | cons n l =>
    have hn := h n List.mem_cons_self
    cases l with
    | nil => simpa using takeWhile_slash hn []
    | cons m l =>
      rw [List.intercalate_cons_cons, List.append_assoc]
      exact takeWhile_slash hn _

theorem names_intercalate {l : List Text} (h : ∀ n ∈ l, IsName n) :
    (([.char '/'] : Text).intercalate l |>.splitOn (.char '/')).filter (fun n => n ≠ [] ∧ n ≠ stay) = l := by
  by_cases hl : l = []
  · subst hl
    rfl
  · rw [List.splitOn_intercalate _ (fun n hn => (h n hn).slash_notMem) hl, filter_names h]

theorem ofText_toText (h : p.Sound) : ofText p.toText = p := by
  obtain ⟨anchor, names⟩ := p
  have hslash := takeWhile_intercalate h
  have hnames := names_intercalate h
  cases anchor with
  | relative =>
    by_cases hn : names = []
    · subst hn
      rfl
    · simp only [ofText, toText, if_neg hn, hslash, hnames]
      rfl
  | root =>
    simp only [ofText, toText, List.takeWhile_cons, hslash, List.splitOn_cons_eq_if_modifyHead]
    simpa [anchorOf] using hnames
  | doubleRoot =>
    simp only [ofText, toText, List.takeWhile_cons, hslash, List.splitOn_cons_eq_if_modifyHead]
    simpa [anchorOf] using hnames

theorem mem_absolute (hn : n ∈ (p.absolute here).names) : n ∈ here ∨ n ∈ p.names := by
  rw [absolute] at hn
  split at hn
  · exact List.mem_append.1 hn
  · exact Or.inr hn

theorem mem_parent (hn : n ∈ p.parent.names) : n ∈ p.names := List.dropLast_subset _ hn

theorem mem_join (hn : n ∈ (p.join q).names) : n ∈ p.names ∨ n ∈ q.names := by
  rw [join] at hn
  split at hn
  · exact List.mem_append.1 hn
  · exact Or.inr hn

theorem mem_step {a : Address} {m : Text} (hn : n ∈ step a m) : n ∈ a ∨ n = m ∧ m ≠ up := by
  rw [step] at hn
  split at hn
  · exact Or.inl hn
  · split at hn
    · exact Or.inl (List.dropLast_subset _ hn)
    · next hup =>
      rcases List.mem_append.1 hn with hn | hn
      · exact Or.inl hn
      · exact Or.inr ⟨by simpa using hn, hup⟩

theorem mem_foldl_step {ns : List Text} {a : Address} (hn : n ∈ ns.foldl step a) :
    n ∈ a ∨ n ∈ ns ∧ n ≠ up := by
  induction ns generalizing a with
  | nil => exact Or.inl hn
  | cons m ns ih =>
    rcases ih hn with hn | ⟨hn, hup⟩
    · rcases mem_step hn with hn | ⟨rfl, hup⟩
      · exact Or.inl hn
      · exact Or.inr ⟨List.mem_cons_self, hup⟩
    · exact Or.inr ⟨List.mem_cons_of_mem m hn, hup⟩

theorem mem_address (hn : n ∈ p.address here) : n ∈ here ∨ n ∈ p.names ∧ n ≠ up := by
  rcases mem_foldl_step hn with hn | hn
  · rw [start] at hn
    split at hn
    · exact Or.inl hn
    · contradiction
  · exact Or.inr hn

theorem canonical_address (hh : here.Canonical) (h : p.Sound) : (p.address here).Canonical := by
  intro n hn
  rcases mem_address hn with hn | ⟨hn, hup⟩
  · exact hh n hn
  · exact ⟨h n hn, hup⟩

end Path

structure Include.Records (prefixes : PrefixMap) (tree : FileTree) (requested : Text) (source : Text) (i : Include) :
    Prop where
  file : i.file = prefixes.resolve requested
  source : i.source = source
  requested : i.requested = requested
  path : i.path = target tree.here i.source i.file
  isFile : tree.isFile i.path = .ok i.found

namespace Include

variable {prefixes : PrefixMap} {tree : FileTree} {requested : Text} {i : Include} {here : Address}
  {source mapped : Text} {n : Text}

theorem resolve_eq_ok_iff :
    resolve prefixes tree requested source = .ok i ↔ Records prefixes tree requested source i := by
  constructor
  · intro h
    unfold resolve at h
    dsimp only at h
    split at h
    · next found hf =>
      cases h
      exact ⟨rfl, rfl, rfl, rfl, hf⟩
    · contradiction
  · obtain ⟨file, s, r, path, found⟩ := i
    rintro ⟨hfile, hsource, hrequested, hpath, hf⟩
    dsimp only at hfile hsource hrequested hpath hf
    subst hfile hsource hrequested hpath
    unfold resolve
    dsimp only
    rw [hf]

theorem mem_target (hn : n ∈ (target here source mapped).names) :
    n ∈ here ∨ n ∈ (Path.ofText source).names ∨ n ∈ (Path.ofText (plainSlashes mapped)).names := by
  rcases Path.mem_join hn with hn | hn
  · rcases Path.mem_absolute (Path.mem_parent hn) with hn | hn
    · exact Or.inl hn
    · exact Or.inr (Or.inl hn)
  · exact Or.inr (Or.inr hn)

theorem sound_target (hh : here.Canonical) : (target here source mapped).Sound := by
  intro n hn
  rcases mem_target hn with hn | hn | hn
  · exact (hh n hn).1
  · exact Path.sound_ofText _ n hn
  · exact Path.sound_ofText _ n hn

end Include

namespace Address

variable {a b : Address}

theorem toText_eq (a : Address) : a.toText = Path.toText ⟨.root, a⟩ := by
  cases a with
  | nil => rfl
  | cons n a =>
    induction a generalizing n with
    | nil => simp [toText, Path.toText]
    | cons m a ih =>
      have := ih m
      simp only [toText, Path.toText, List.flatMap_cons, List.intercalate_cons_cons] at this ⊢
      rw [this]
      simp

theorem Canonical.sound (h : a.Canonical) : Path.Sound ⟨.root, a⟩ := fun n hn => (h n hn).1

theorem Canonical.ofText_toText (h : a.Canonical) : Path.ofText a.toText = ⟨.root, a⟩ := by
  rw [toText_eq, Path.ofText_toText h.sound]

theorem Canonical.eq_of_toText_eq (ha : a.Canonical) (hb : b.Canonical) (h : a.toText = b.toText) : a = b := by
  have hp : (⟨.root, a⟩ : Path) = ⟨.root, b⟩ := by
    rw [← ha.ofText_toText, ← hb.ofText_toText, h]
  exact congrArg Path.names hp

end Address

end ScriptMacros
