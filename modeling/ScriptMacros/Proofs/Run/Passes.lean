import Mathlib.Data.List.Forall2
import ScriptMacros.Proofs.Conservation
import ScriptMacros.Proofs.Result
import ScriptMacros.Proofs.Run.Relocating
import ScriptMacros.Proofs.Splitting

namespace ScriptMacros

theorem sourceLines_clean {t raw : Text} (h : raw ∈ sourceLines t) : .char '\n' ∉ raw ∧ .char '\r' ∉ raw := by
  refine ⟨Text.newline_notMem h, ?_⟩
  intro hr
  have hf := Text.subset_of_mem_lines h hr
  simp at hf

theorem sourceLines_of_notMem {t : Text} (h : .char '\r' ∉ t) : sourceLines t = Text.lines t := by
  rw [sourceLines, List.filter_eq_self.2]
  intro c hc
  exact decide_eq_true fun he => h (he ▸ hc)

namespace Project

variable {p : Project} {active : List Address} {entering : Entering p active} {tagged : Bool} {place : Location}
  {g g' : Progress}

theorem enter_eq_ok {i : Include} (h : p.enter active entering place i g = .ok g') :
    (p.entry active i = .absent ∧ g' = g) ∨
      ∃ t a ha hf out, p.entry active i = .text t a ha hf ∧ entering i t a ha hf g = .ok (out, g') := by
  rw [enter] at h
  split at h
  · next he =>
    cases h
    exact Or.inl ⟨he, rfl⟩
  · contradiction
  · contradiction
  · next t a ha hf he =>
    obtain ⟨⟨out, g₁⟩, hn, rfl⟩ := exists_of_map_eq_ok h
    exact Or.inr ⟨t, a, ha, hf, out, he, hn⟩

theorem applyDirective_eq_ok [entering.Settles] {d : Directive}
    (h : p.applyDirective active entering tagged place d g = .ok g') :
    (d.kind = .define ∧ ∃ e, Declaration.parse d.value = .ok e ∧ g' = g.define place tagged d.value e) ∨
      (d.kind = .inclusion ∧ ∃ requested i, Directive.fileName d.value = .ok requested ∧
        Include.resolve p.options.prefixes p.tree requested place.file = .ok i ∧
        p.enter active entering place i (g.record i) = .ok g') ∨
      ((d.kind = .condition ∨ d.kind = .unknown) ∧ g' = g) := by
  rw [applyDirective_eq] at h
  cases hk : d.kind with
  | define =>
    simp only [hk] at h
    split at h
    · next e he =>
      cases h
      exact Or.inl ⟨rfl, e, he, rfl⟩
    · contradiction
  | inclusion =>
    simp only [hk] at h
    split at h
    · contradiction
    · next requested hr =>
      split at h
      · contradiction
      · next i hi => exact Or.inr (Or.inl ⟨rfl, requested, i, hr, hi, h⟩)
  | condition =>
    simp only [hk] at h
    cases h
    exact Or.inr (Or.inr ⟨Or.inl rfl, rfl⟩)
  | unknown =>
    simp only [hk] at h
    cases h
    exact Or.inr (Or.inr ⟨Or.inr rfl, rfl⟩)

theorem passLine_eq_ok {raw t : Text} (h : p.passLine active entering tagged place raw g = .ok (t, g')) :
    (∃ d, Directive.ofLine? (Line.normalize raw) = some d ∧ t = [] ∧
        p.applyDirective active entering tagged place d g = .ok g') ∨
      (Directive.ofLine? (Line.normalize raw) = none ∧ g' = g ∧
        g.macros.expand p.options.limit (Line.normalize raw) = .ok t) := by
  unfold passLine at h
  dsimp only at h
  split at h
  · next d hd =>
    obtain ⟨g₁, ha, he⟩ := exists_of_map_eq_ok h
    cases he
    exact Or.inl ⟨d, hd, rfl, ha⟩
  · next hd =>
    split at h
    · next u hu =>
      cases h
      exact Or.inr ⟨hd, rfl, hu⟩
    · contradiction

section

variable {source : Text} {i : Include}

def Asks (p : Project) (source : Text) (raw : Text) (i : Include) : Prop :=
  ∃ d requested, Directive.ofLine? (Line.normalize raw) = some d ∧ d.kind = .inclusion ∧
    Directive.fileName d.value = .ok requested ∧ Include.resolve p.options.prefixes p.tree requested source = .ok i

theorem Asks.resolves {raw : Text} (h : p.Asks source raw i) :
    ∃ requested, Include.resolve p.options.prefixes p.tree requested source = .ok i := by
  obtain ⟨d, requested, -, -, -, hi⟩ := h
  exact ⟨requested, hi⟩

theorem Asks.applyDirective [entering.Settles] {place : Location} {raw : Text} {d : Directive} (h : p.Asks source raw i)
    (hd : Directive.ofLine? (Line.normalize raw) = some d) (hplace : place.file = source) :
    p.applyDirective active entering tagged place d g = p.enter active entering place i (g.record i) := by
  obtain ⟨d', requested, hd', hk, hr, hi⟩ := h
  obtain rfl : d = d' := Option.some.inj (hd.symm.trans hd')
  rw [Project.applyDirective_eq]
  simp only [hk, hr, hplace, hi]

end

theorem passLines_cons_eq_ok {source : Text} {n : Nat} {raw : Text} {rest out : List Text}
    (h : p.passLines active entering source tagged n (raw :: rest) g = .ok (out, g')) :
    ∃ t g₁ out', p.passLine active entering tagged ⟨source, n, 1⟩ raw g = .ok (t, g₁) ∧
      p.passLines active entering source tagged (n + 1) rest g₁ = .ok (out', g') ∧ out = t :: out' := by
  rw [passLines] at h
  split at h
  · contradiction
  · next t g₁ ht =>
    split at h
    · contradiction
    · next out' g₂ hr =>
      cases h
      exact ⟨t, g₁, out', ht, hr, rfl⟩

section

variable {source : Text} {n : Nat} {lines out : List Text} {g₁ g₂ : Progress}

theorem passLines_cons (raw : Text) (rest : List Text) (n : Nat) (g : Progress) :
    p.passLines active entering source tagged n (raw :: rest) g =
      (p.passLine active entering tagged ⟨source, n, 1⟩ raw g).bind fun r =>
        (p.passLines active entering source tagged (n + 1) rest r.2).map fun q => (r.1 :: q.1, q.2) := by
  rw [passLines]
  cases p.passLine active entering tagged ⟨source, n, 1⟩ raw g with
  | error halt => rfl
  | ok r =>
    dsimp only [Except.bind]
    cases p.passLines active entering source tagged (n + 1) rest r.2 with
    | error halt => rfl
    | ok q => rfl

theorem passLines_cons_map {α : Type} {raw : Text} {rest : List Text} (k : List Text × Progress → α) :
    (p.passLines active entering source tagged n (raw :: rest) g).map k =
      (p.passLine active entering tagged ⟨source, n, 1⟩ raw g).bind fun r =>
        (p.passLines active entering source tagged (n + 1) rest r.2).map fun q => k (r.1 :: q.1, q.2) := by
  rw [passLines_cons]
  cases p.passLine active entering tagged ⟨source, n, 1⟩ raw g with
  | error halt => rfl
  | ok r => exact map_map _ _ k

theorem passLines_append (l₁ l₂ : List Text) (n : Nat) (g : Progress) :
    p.passLines active entering source tagged n (l₁ ++ l₂) g =
      (p.passLines active entering source tagged n l₁ g).bind fun r =>
        (p.passLines active entering source tagged (n + l₁.length) l₂ r.2).map fun q => (r.1 ++ q.1, q.2) := by
  induction l₁ generalizing n g with
  | nil =>
    change _ = Except.map _ _
    cases h : p.passLines active entering source tagged n l₂ g <;> simp [Except.map, h]
  | cons raw l₁ ih =>
    rw [List.cons_append, passLines, passLines]
    cases p.passLine active entering tagged ⟨source, n, 1⟩ raw g with
    | error halt => rfl
    | ok r =>
      dsimp only
      rw [ih, List.length_cons, Nat.add_comm l₁.length 1, ← Nat.add_assoc]
      cases p.passLines active entering source tagged (n + 1) l₁ r.2 with
      | error halt => rfl
      | ok q =>
        dsimp only [Except.bind]
        cases p.passLines active entering source tagged (n + 1 + l₁.length) l₂ q.2 with
        | error halt => rfl
        | ok q' => rfl

theorem passLines_append_eq_ok {l₁ l₂ : List Text} :
    p.passLines active entering source tagged n (l₁ ++ l₂) g = .ok (out, g₂) ↔
      ∃ out₁ g₁ out₂, p.passLines active entering source tagged n l₁ g = .ok (out₁, g₁) ∧
        p.passLines active entering source tagged (n + l₁.length) l₂ g₁ = .ok (out₂, g₂) ∧ out = out₁ ++ out₂ := by
  rw [passLines_append]
  constructor
  · intro h
    cases h₁ : p.passLines active entering source tagged n l₁ g with
    | error halt =>
      rw [h₁] at h
      contradiction
    | ok r =>
      rw [h₁] at h
      obtain ⟨q, h₂, he⟩ := exists_of_map_eq_ok h
      cases he
      exact ⟨r.1, r.2, q.1, rfl, h₂, rfl⟩
  · rintro ⟨out₁, g₁, out₂, h₁, h₂, rfl⟩
    rw [h₁]
    dsimp only [Except.bind]
    rw [h₂]
    rfl

theorem passLines_append_of_error {halt : Halt} {l₁ : List Text} (l₂ : List Text)
    (h : p.passLines active entering source tagged n l₁ g = .error halt) :
    p.passLines active entering source tagged n (l₁ ++ l₂) g = .error halt := by
  rw [passLines_append, h]
  rfl

theorem length_passLines (h : p.passLines active entering source tagged n lines g = .ok (out, g₁)) :
    out.length = lines.length := by
  induction lines generalizing n g out with
  | nil =>
    cases h
    rfl
  | cons raw rest ih =>
    obtain ⟨t, g₂, out', -, hr, rfl⟩ := passLines_cons_eq_ok h
    rw [List.length_cons, List.length_cons, ih hr]

theorem runLines_eq_passLines (h : FileTree.askSource source = .ok ()) (lines : List Text) :
    p.runLines source tagged lines = p.passLines [(Path.ofText source).address p.tree.here]
      (p.nested [(Path.ofText source).address p.tree.here]) source tagged 1 lines {} := by
  rw [runLines, h]
  exact p.pass_eq _ source tagged lines {}

theorem askSource_of_runLines {lines : List Text} (h : p.runLines source tagged lines = .ok (out, g)) :
    FileTree.askSource source = .ok () := by
  rw [runLines] at h
  split at h
  · contradiction
  · next hk => exact hk

end

structure Stable (Q : Progress → Prop) : Prop where
  define : ∀ {g raw d e} (place : Location) (tagged : Bool), .char '\n' ∉ raw → .char '\r' ∉ raw →
    Directive.ofLine? (Line.normalize raw) = some d → Declaration.parse d.value = .ok e → Q g →
    Q (g.define place tagged d.value e)
  record : ∀ {g} (i : Include), Q g → Q (g.record i)

/-- How a line is written: a directive leaves an empty line, code is expanded by macros collected in the run. -/
def Written (p : Project) (Q : Progress → Prop) (raw t : Text) : Prop :=
  ((Directive.ofLine? (Line.normalize raw)).isSome ∧ t = []) ∨
    (Directive.ofLine? (Line.normalize raw) = none ∧
      ∃ g : Progress, Q g ∧ g.macros.expand p.options.limit (Line.normalize raw) = .ok t)

variable {Q : Progress → Prop}

theorem Stable.passLine [entering.Settles] (hQ : Stable Q)
    (hent : ∀ i t a ha hf g out g', Q g → entering i t a ha hf g = .ok (out, g') → Q g') {raw t : Text}
    (hn : .char '\n' ∉ raw) (hr : .char '\r' ∉ raw) (hg : Q g)
    (h : p.passLine active entering tagged place raw g = .ok (t, g')) : Q g' ∧ Written p Q raw t := by
  rcases passLine_eq_ok h with ⟨d, hd, rfl, ha⟩ | ⟨hd, rfl, ht⟩
  · refine ⟨?_, Or.inl ⟨by simp [hd], rfl⟩⟩
    rcases applyDirective_eq_ok ha with ⟨-, e, he, rfl⟩ | ⟨-, requested, i, -, -, hi⟩ | ⟨-, rfl⟩
    · exact hQ.define place tagged hn hr hd he hg
    · rcases enter_eq_ok hi with ⟨-, rfl⟩ | ⟨t, a, ha, hf, out, -, he⟩
      · exact hQ.record i hg
      · exact hent i t a ha hf _ out g' (hQ.record i hg) he
    · exact hg
  · exact ⟨hg, Or.inr ⟨hd, g', hg, ht⟩⟩

theorem Stable.passLines [entering.Settles] (hQ : Stable Q)
    (hent : ∀ i t a ha hf g out g', Q g → entering i t a ha hf g = .ok (out, g') → Q g') {source : Text}
    {n : Nat} {lines out : List Text} (hl : ∀ raw ∈ lines, .char '\n' ∉ raw ∧ .char '\r' ∉ raw) (hg : Q g)
    (h : p.passLines active entering source tagged n lines g = .ok (out, g')) :
    Q g' ∧ List.Forall₂ (Written p Q) lines out := by
  induction lines generalizing n g out with
  | nil =>
    cases h
    exact ⟨hg, .nil⟩
  | cons raw rest ih =>
    obtain ⟨t, g₁, out', ht, hr, rfl⟩ := passLines_cons_eq_ok h
    obtain ⟨hc, hcs⟩ := List.forall_mem_cons.1 hl
    obtain ⟨hg₁, hw⟩ := hQ.passLine hent hc.1 hc.2 hg ht
    obtain ⟨hg', hws⟩ := ih hcs hg₁ hr
    exact ⟨hg', .cons hw hws⟩

theorem Stable.pass (hQ : Stable Q) {source : Text} {lines out : List Text}
    (hl : ∀ raw ∈ lines, .char '\n' ∉ raw ∧ .char '\r' ∉ raw) (hg : Q g)
    (h : p.pass active source tagged lines g = .ok (out, g')) :
    Q g' ∧ List.Forall₂ (Written p Q) lines out := by
  -- Each nested file leaves fewer addresses to enter.
  induction hk : p.tree.remaining active using Nat.strongRecOn
    generalizing active source tagged lines g out g' with
  | _ k ih =>
    rw [pass_eq] at h
    refine hQ.passLines ?_ hl hg h
    intro i t a ha hf g out g' hg h
    have hlt : p.tree.remaining (active ++ [a]) < k := hk ▸ FileTree.remaining_lt ha hf
    exact (ih _ hlt (fun raw hraw => sourceLines_clean hraw) hg h rfl).1

theorem Stable.nested (hQ : Stable Q) (i : Include) (t : Text) (a : Address) (ha : a ∉ active)
    (hf : a ∈ p.tree.addresses) (g : Progress) (out : List Text) (g' : Progress) (hg : Q g)
    (h : p.nested active i t a ha hf g = .ok (out, g')) : Q g' :=
  (hQ.pass (fun _ hraw => sourceLines_clean hraw) hg h).1

theorem Stable.run (hQ : Stable Q) (h₀ : Q {}) {source : Text} {script t : Text}
    (h : p.run source tagged script = .ok (t, g)) :
    ∃ out, t = Text.ofLines out ∧ Q g ∧ List.Forall₂ (Written p Q) (sourceLines script) out := by
  obtain ⟨⟨out, g₁⟩, hp, he⟩ := exists_of_map_eq_ok h
  cases he
  rw [runLines] at hp
  split at hp
  · contradiction
  · obtain ⟨hg, hw⟩ := hQ.pass (fun raw hraw => sourceLines_clean hraw) h₀ hp
    exact ⟨out, rfl, hg, hw⟩

end Project

end ScriptMacros
