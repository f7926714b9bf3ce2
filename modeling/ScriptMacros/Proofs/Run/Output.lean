import ScriptMacros.Proofs.Normalization
import ScriptMacros.Proofs.Run.Passes

namespace ScriptMacros

def CleanBodies (g : Progress) : Prop := ∀ m ∈ g.macros.macros, ∀ c ∈ m.body, InLine c

theorem exists_of_mem_registerIn {r : Registration} {ms : List Macro} {m : Macro} (h : m ∈ registerIn r ms) :
    m ∈ ms ∨ m = r.fresh ∨ ∃ m' ∈ ms, m'.name = r.name ∧ m = m'.extend r.definition := by
  induction ms with
  | nil => exact Or.inr (Or.inl (List.mem_singleton.1 h))
  | cons a ms ih =>
    rw [registerIn] at h
    split at h
    · next hname =>
      rcases List.mem_cons.1 h with rfl | h
      · exact Or.inr (Or.inr ⟨a, List.mem_cons_self, hname, rfl⟩)
      · exact Or.inl (List.mem_cons_of_mem a h)
    · rcases List.mem_cons.1 h with rfl | h
      · exact Or.inl List.mem_cons_self
      · rcases ih h with h | h | ⟨m', hm', h⟩
        · exact Or.inl (List.mem_cons_of_mem a h)
        · exact Or.inr (Or.inl h)
        · exact Or.inr (Or.inr ⟨m', List.mem_cons_of_mem a hm', h⟩)

theorem mem_registerIn {r : Registration} {ms : List Macro} {m : Macro} (h : m ∈ registerIn r ms) :
    m ∈ ms ∨ m.body = r.definition.value := by
  rcases exists_of_mem_registerIn h with h | rfl | ⟨m', -, -, rfl⟩
  · exact Or.inl h
  · exact Or.inr rfl
  · exact Or.inr (Macro.body_extend m' r.definition)

theorem Progress.forall_mem_body_define {P : CodePoint → Prop} {g : Progress} {value : Text} {e : Declaration}
    (he : Declaration.parse value = .ok e) (hvalue : ∀ c ∈ value, P c) (hg : ∀ m ∈ g.macros.macros, ∀ c ∈ m.body, P c)
    (place : Location) (tagged : Bool) : ∀ m ∈ (g.define place tagged value e).macros.macros, ∀ c ∈ m.body, P c := by
  intro m hm c hc
  rcases mem_registerIn hm with hm | hb
  · exact hg m hm c hc
  · rw [hb] at hc
    exact hvalue c (Declaration.body_subset he hc)

theorem inLine_normalize {raw : Text} (hn : .char '\n' ∉ raw) (hr : .char '\r' ∉ raw) :
    ∀ c ∈ Line.normalize raw, InLine c := by
  intro c hc
  obtain ⟨ht, hm | rfl⟩ := Line.mem_normalize hc
  · exact ⟨fun he => hn (he ▸ hm), fun he => hr (he ▸ hm), ht⟩
  · exact ⟨by decide, by decide, by decide⟩

theorem cleanBodies_stable : Project.Stable CleanBodies where
  define := by
    intro g raw d e place tagged hn hr hd he hg
    have hvalue : ∀ c ∈ d.value, InLine c := fun c hc => inLine_normalize hn hr c (Directive.value_subset hd hc)
    exact Progress.forall_mem_body_define he hvalue hg place tagged
  record := fun _ hg => hg

theorem Project.Written.inLine {p : Project} {raw t : Text} (h : p.Written CleanBodies raw t) (hn : .char '\n' ∉ raw)
    (hr : .char '\r' ∉ raw) : ∀ c ∈ t, InLine c := by
  rcases h with ⟨-, rfl⟩ | ⟨-, g, hg, ht⟩
  · simp
  · apply Expansion.forall_mem_expand _ _ (inLine_normalize hn hr) ht
    · exact ⟨by decide, by decide, by decide⟩
    · intro m hm
      exact hg m (mem_longestFirst.1 hm)

theorem length_sourceLines (script : Text) : (sourceLines script).length = script.count (.char '\n') + 1 := by
  rw [sourceLines, Text.lines, length_splitOn, List.count_filter (by decide)]

theorem inLine_of_written {p : Project} {lines out : List Text}
    (hl : ∀ raw ∈ lines, .char '\n' ∉ raw ∧ .char '\r' ∉ raw)
    (h : List.Forall₂ (p.Written CleanBodies) lines out) : ∀ t ∈ out, ∀ c ∈ t, InLine c := by
  induction h with
  | nil =>
    intro t ht
    contradiction
  | @cons raw t rest out hw _ ih =>
    obtain ⟨hraw, hrest⟩ := List.forall_mem_cons.1 hl
    exact List.forall_mem_cons.2 ⟨hw.inLine hraw.1 hraw.2, ih hrest⟩

theorem count_ofLines {ls : List Text} (hne : ls ≠ []) (h : ∀ l ∈ ls, .char '\n' ∉ l) :
    (Text.ofLines ls).count (.char '\n') + 1 = ls.length := by
  rw [← length_splitOn]
  exact congrArg List.length (Text.lines_ofLines hne h)

theorem notMem_ofLines {ls : List Text} {c : CodePoint} (hc : c ≠ '\n') (h : ∀ l ∈ ls, c ∉ l) :
    c ∉ Text.ofLines ls := by
  intro hm
  rcases Text.mem_ofLines hm with he | ⟨l, hl, hm⟩
  · exact hc he
  · exact h l hl hm

namespace Project

variable {p : Project} {source : Text} {tagged : Bool} {script : Text} {out : List Text} {g : Progress}

theorem lines_runLines (h : p.runLines source tagged (sourceLines script) = .ok (out, g)) :
    Text.lines (Text.ofLines out) = out := by
  have hw : List.Forall₂ (p.Written CleanBodies) (sourceLines script) out := by
    rw [runLines] at h
    split at h
    · contradiction
    · exact (cleanBodies_stable.pass (fun raw hraw => sourceLines_clean hraw)
        (fun m hm => by simp [MacroTable.empty] at hm) h).2
  apply Text.lines_ofLines
  · rintro rfl
    have hlen := hw.length_eq
    rw [length_sourceLines] at hlen
    contradiction
  · intro l hl hn
    exact (inLine_of_written (fun raw hraw => sourceLines_clean hraw) hw l hl _ hn).1 rfl

theorem run_eq_ok_iff {t : Text} : p.run source tagged script = .ok (t, g) ↔
    p.runLines source tagged (sourceLines script) = .ok (Text.lines t, g) := by
  constructor
  · intro h
    obtain ⟨⟨out, g'⟩, hout, he⟩ := exists_of_map_eq_ok h
    cases he
    rw [lines_runLines hout, hout]
  · intro h
    rw [run, h]
    exact congrArg (fun t => Except.ok (t, g)) (List.intercalate_splitOn (CodePoint.char '\n'))

theorem run_eq_error_iff {halt : Halt} : p.run source tagged script = .error halt ↔
    p.runLines source tagged (sourceLines script) = .error halt := by
  rw [run]
  cases p.runLines source tagged (sourceLines script) <;> simp [Except.map]

end Project

/-- A run that succeeds writes as many lines as the script has, without carriage returns and tabs, and an empty
one for each directive. -/
theorem run_keeps_lines (p : Project) (source : Text) (tagged : Bool) (script : Text) {t : Text}
    {g : Progress} (h : p.run source tagged script = .ok (t, g)) :
    t.count (.char '\n') = script.count (.char '\n') ∧ .char '\r' ∉ t ∧ .char '\t' ∉ t ∧
      ∀ (i : Nat) (raw : Text), (sourceLines script)[i]? = some raw → (Line.normalize raw).head? = some (.char '#') →
        (Text.lines t)[i]? = some [] := by
  obtain ⟨out, rfl, -, hw⟩ := cleanBodies_stable.run (fun m hm => by simp [MacroTable.empty] at hm) h
  have hlen : out.length = (sourceLines script).length := hw.length_eq.symm
  have hclean := inLine_of_written (fun raw hraw => sourceLines_clean hraw) hw
  have hbreak : ∀ l ∈ out, .char '\n' ∉ l := fun l hl hn => (hclean l hl _ hn).1 rfl
  have hne : out ≠ [] := by
    rintro rfl
    simp [length_sourceLines] at hlen
  refine ⟨?_, ?_, ?_, ?_⟩
  · have hcount := count_ofLines hne hbreak
    rw [length_sourceLines] at hlen
    omega
  · apply notMem_ofLines (by decide)
    exact fun l hl hm => (hclean l hl _ hm).2.1 rfl
  · apply notMem_ofLines (by decide)
    exact fun l hl hm => (hclean l hl _ hm).2.2 rfl
  · intro i raw hraw hd
    obtain ⟨hi, rfl⟩ := List.getElem?_eq_some_iff.1 hraw
    have hi' : i < out.length := hlen ▸ hi
    rcases hw.get hi hi' with ⟨-, ht⟩ | ⟨hnone, -⟩
    · rw [Text.lines_ofLines hne hbreak, List.getElem?_eq_getElem hi']
      exact congrArg some ht
    · have hsome := Directive.isSome_ofLine?.2 hd
      simp only [List.get_eq_getElem] at hnone
      simp [hnone] at hsome

theorem run_keeps_lines_nested :
    let p : Project := { tree := ⟨[([[97]], .file (Utf8.encode "#define B(x)\tx#\tx\r\n".toList))], []⟩ }
    let script := "A\t/* A */\r\n#include <a>\nB(\t1)\n\t#define A\tB(2)\n\r\tA".toText
    ∃ t g, p.run ("main".toText) false script = .ok (t, g) ∧ t = "A \n\n1# 1\n\n2# 2".toText ∧
      t.count (.char '\n') = script.count (.char '\n') ∧ .char '\r' ∉ t ∧ .char '\t' ∉ t ∧
      ∀ (i : Nat) (raw : Text), (sourceLines script)[i]? = some raw → (Line.normalize raw).head? = some (.char '#') →
        (Text.lines t)[i]? = some [] := by
  intro p script
  have ht : (p.run ("main".toText) false script).map (·.1) = .ok "A \n\n1# 1\n\n2# 2".toText := by
    decide +kernel
  obtain ⟨⟨t, g⟩, h, rfl⟩ := exists_of_map_eq_ok ht
  exact ⟨_, g, h, rfl, run_keeps_lines p _ false script h⟩

end ScriptMacros
