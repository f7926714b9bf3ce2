import ScriptMacros.Proofs.Run.Following
import ScriptMacros.Proofs.Settling

namespace ScriptMacros

def Limit.integer? : Limit → Option Int
  | count n => some n
  | yes => some 1
  | absent => none

theorem Limit.allowed?_eq {l : Limit} {n : Int} (h : l.integer? = some n) : l.allowed? = some n.toNat := by
  cases l with
  | count m =>
    cases h
    rfl
  | yes =>
    cases h
    rfl
  | absent => contradiction

def Failure.IsRecursion : Failure → Prop
  | expansion (.recursion _ _) _ _ => True
  | _ => False

namespace Expansion

variable {ms : List Macro} {left count : Nat} {line t : Text} {f : Fault} {l l' : Limit} {n m : Int}

theorem expandWithin_eq_error (h : expandWithin ms left count line = .error f) : ∃ name c, f = .recursion name c := by
  fun_induction expandWithin ms left count line with
  | case1 => contradiction
  | case2 left count line m i hf hi =>
    cases h
    exact ⟨_, _, rfl⟩
  | case3 count line m i hf hi =>
    cases h
    exact ⟨_, _, rfl⟩
  | case4 count line m i hf hi left ih => exact ih h

theorem expand_eq_within (hn : l.integer? = some n) : expand ms l line = expandWithin ms n.toNat 0 line := by
  rw [expand, Limit.allowed?_eq hn]

theorem expand_of_le (hn : l.integer? = some n) (hm : l'.integer? = some m) (hle : n ≤ m)
    (h : expand ms l line = .ok t) : expand ms l' line = .ok t := by
  obtain ⟨k, hk, hsettles⟩ := expand_eq_ok_iff.1 h
  rw [Limit.allowed?_eq hn] at hk
  refine expand_eq_ok_iff.2 ⟨k, ?_, hsettles⟩
  rw [Limit.allowed?_eq hm]
  exact Nat.le_trans hk (Int.toNat_le_toNat hle)

end Expansion

namespace Project

def withLimit (p : Project) (l : Limit) : Project := { p with options := { p.options with limit := l } }

variable {p : Project} {l l' : Limit} {n m : Int}

theorem accompanies_withLimit (p : Project) (hn : l.integer? = some n) (hm : l'.integer? = some m) (hle : n ≤ m) :
    (p.withLimit l).Accompanies (fun f => ¬f.IsRecursion) (fun _ => False) (p.withLimit l') where
  here := rfl
  resolve := fun _ _ => rfl
  reads := fun _ => .refl _
  expands := fun _ _ _ hx => Expansion.expand_of_le hn hm hle hx
  fails := by
    intro t line f place hx hf
    rw [MacroTable.expand] at hx
    change Expansion.expand t.byLength l line = .error f at hx
    rw [Expansion.expand_eq_within hn] at hx
    obtain ⟨name, c, rfl⟩ := Expansion.expandWithin_eq_error hx
    exact absurd trivial hf
  idle := fun _ h => h.elim

/-- A larger limit changes nothing about a run but, perhaps, that it is given up as recursive. -/
theorem run_of_limit_le (p : Project) (source : Text) (tagged : Bool) (script : Text) (hn : l.integer? = some n)
    (hm : l'.integer? = some m) (hle : n ≤ m) :
    (∀ r, (p.withLimit l).run source tagged script = .ok r → (p.withLimit l').run source tagged script = .ok r) ∧
    ∀ halt, (p.withLimit l).run source tagged script = .error halt → ¬halt.failure.IsRecursion →
      (p.withLimit l').run source tagged script = .error halt := by
  have hfollows : Follows (fun f => ¬f.IsRecursion) id ((p.withLimit l).run source tagged script)
      ((p.withLimit l').run source tagged script) := by
    have hlines := (accompanies_withLimit p hn hm hle).runLines source tagged
      (Chooses.none (sourceLines script))
    rw [emptied_none] at hlines
    apply hlines.map
    intro r
    rw [emptied_none]
    rfl
  exact ⟨fun r h => hfollows.eq_ok h, fun halt h hf => hfollows.eq_error h hf⟩

theorem run_of_limit_le_nested :
    let p : Project := { tree := ⟨[([[97]], .file (Utf8.encode "#define A B\n#define B 1".toList))], []⟩ }
    let source : Text := "main".toText
    let script := "#include 'a'\nB".toText
    let failing := "#include 'a'\nB\n#define".toText
    Limit.yes.integer? = some 1 ∧ (Limit.count 2).integer? = some 2 ∧ ∃ r halt,
      (p.withLimit .yes).run source false script = .ok r ∧ r.1 = "\n1".toText ∧
      (p.withLimit (.count 2)).run source false script = .ok r ∧
      (p.withLimit .yes).run source false failing = .error halt ∧
      halt.failure = .directive .noMacroName (some ⟨source, 3, 1⟩) ∧
      (p.withLimit (.count 2)).run source false failing = .error halt := by
  intro p source script failing
  have hruns : ((p.withLimit .yes).run source false script).map (·.1) = .ok "\n1".toText := by decide +kernel
  have hfails : ((p.withLimit .yes).run source false failing).mapError (·.failure) =
      .error (.directive .noMacroName (some ⟨source, 3, 1⟩)) := by
    decide +kernel
  obtain ⟨r, h, hr⟩ := exists_of_map_eq_ok hruns
  obtain ⟨halt, hhalt, hf⟩ := exists_of_mapError_eq_error hfails
  have hrecursion : ¬halt.failure.IsRecursion := by
    rw [hf]
    exact id
  have hle : (1 : Int) ≤ 2 := by decide
  exact ⟨rfl, rfl, r, halt, h, hr, (run_of_limit_le p source false script rfl rfl hle).1 r h, hhalt, hf,
    (run_of_limit_le p source false failing rfl rfl hle).2 halt hhalt hrecursion⟩

end Project

end ScriptMacros
