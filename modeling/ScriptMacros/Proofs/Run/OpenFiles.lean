import Mathlib.Data.List.Nodup
import ScriptMacros.Proofs.Encoding
import ScriptMacros.Proofs.Path
import ScriptMacros.Proofs.Run.Agreement

namespace ScriptMacros

def RunState.active (here : Address) (s : RunState) : List Address :=
  ((s.frames.map (·.source)).map fun n => (Path.ofText n).address here).reverse

theorem FileTree.exists_get?_of_file? {t : FileTree} {a : Address} {bytes : List UInt8} (h : t.file? a = some bytes) :
    ∃ q r, a.place? = some q ∧ Association.get? q t.nodes = some (.file bytes r) := by
  rw [file?, node?] at h
  split at h
  · next b r hb =>
    cases h
    split at hb
    · cases hb
    · split at hb
      · next q hq => exact ⟨q, r, hq, hb⟩
      · contradiction
  · contradiction

namespace Project

variable {p : Project} {s s' t : RunState} {source : Text} {tagged : Bool} {script : Text} {i : Include}
  {active : List Address} {a : Address} {text : Text}

theorem entry_read {ha : a ∉ active} {hf : a ∈ p.tree.addresses} (h : p.entry active i = .text text a ha hf) :
    a = i.path.address p.tree.here ∧ i.found = true ∧ p.readText i.path = .ok text := by
  rw [entry] at h
  split at h
  · next hfound =>
    dsimp only at h
    split at h
    · contradiction
    · split at h
      · contradiction
      · next t hread =>
        cases h
        exact ⟨rfl, hfound, hread⟩
  · contradiction

theorem entry_eq_text {ha : a ∉ active} {hf : a ∈ p.tree.addresses} (h : p.entry active i = .text text a ha hf) :
    a = i.path.address p.tree.here ∧ ∃ bytes, p.tree.file? a = some bytes := by
  obtain ⟨rfl, -, hread⟩ := entry_read h
  obtain ⟨bytes, hbytes, -⟩ := readText_eq_ok_iff.1 hread
  exact ⟨rfl, bytes, FileTree.read_eq_ok hbytes⟩

theorem entry_of_read (hfound : i.found = true) (hread : p.readText i.path = .ok text)
    (ha : i.path.address p.tree.here ∉ active) :
    ∃ hf, p.entry active i = .text text (i.path.address p.tree.here) ha hf := by
  refine ⟨p.mem_addresses_of_readText hread, ?_⟩
  rw [entry, if_pos hfound, dif_neg ha]
  split
  · next f hf => cases hread.symm.trans hf
  · next t ht =>
    obtain rfl : text = t := Except.ok.inj (hread.symm.trans ht)
    rfl

theorem entry_of_not_found (h : i.found = false) : p.entry active i = .absent := by
  rw [entry, h]
  rfl

theorem entry_eq_absent_iff : p.entry active i = .absent ↔ i.found = false := by
  refine ⟨fun h => ?_, entry_of_not_found⟩
  rw [entry] at h
  split at h
  · dsimp only at h
    split at h
    · contradiction
    · split at h <;> contradiction
  · next hfound => exact Bool.eq_false_iff.2 hfound

theorem entry_eq_circular (h : p.entry active i = .circular a) :
    a = i.path.address p.tree.here ∧ a ∈ active ∧ i.found = true := by
  rw [entry] at h
  split at h
  · next hfound =>
    dsimp only at h
    split at h
    · next ha =>
      cases h
      exact ⟨rfl, ha, hfound⟩
    · split at h <;> contradiction
  · contradiction

theorem entry_of_mem (hfound : i.found = true) (ha : i.path.address p.tree.here ∈ active) :
    p.entry active i = .circular (i.path.address p.tree.here) := by
  rw [entry, if_pos hfound, dif_pos ha]

theorem entry_eq_unusable {f : ReadFault} (h : p.entry active i = .unusable f) :
    i.found = true ∧ i.path.address p.tree.here ∉ active ∧ p.readText i.path = .error f := by
  rw [entry] at h
  split at h
  · next hfound =>
    dsimp only at h
    split at h
    · contradiction
    · next ha =>
      split at h
      · next f' hf =>
        cases h
        exact ⟨hfound, ha, hf⟩
      · contradiction
  · contradiction

theorem entry_of_fault {f : ReadFault} (hfound : i.found = true) (hread : p.readText i.path = .error f)
    (ha : i.path.address p.tree.here ∉ active) : p.entry active i = .unusable f := by
  rw [entry, if_pos hfound, dif_neg ha]
  split
  · next f' hf =>
    obtain rfl : f = f' := Except.error.inj (hread.symm.trans hf)
    rfl
  · next t ht => cases hread.symm.trans ht

structure Orderly (p : Project) (s : RunState) : Prop where
  depth : s.stack.length = s.frames.length
  nodup : s.stack.Nodup
  files : ∀ a ∈ s.stack.tail, ∃ bytes, p.tree.file? a = some bytes

theorem Change.orderly (h : p.Change s s') (hs : p.Orderly s) : p.Orderly s' := by
  cases h with
  | stay hstack hsources =>
    have hlen := congrArg List.length hsources
    rw [List.length_map, List.length_map] at hlen
    refine ⟨?_, ?_, ?_⟩
    · rw [hstack, hs.depth, hlen]
    · exact hstack ▸ hs.nodup
    · exact hstack ▸ hs.files
  | close hframes hstack =>
    refine ⟨?_, ?_, ?_⟩
    · rw [hstack, List.length_dropLast, hs.depth, hframes]
      rfl
    · rw [hstack]
      exact hs.nodup.sublist (List.dropLast_sublist _)
    · intro a ha
      rw [hstack, List.tail_dropLast] at ha
      exact hs.files a (List.dropLast_subset _ ha)
  | @enter f outer raw rest i text a hna hf hi he hstack hsources _ =>
    have hlen := congrArg List.length hsources
    rw [List.length_map, List.length_cons, List.length_map] at hlen
    refine ⟨?_, ?_, ?_⟩
    · rw [hstack, List.length_append, hs.depth, hlen]
      rfl
    · rw [hstack]
      exact Association.nodup_snoc hs.nodup hna
    · intro b hb
      rw [hstack] at hb
      cases hst : s.stack with
      | nil =>
        rw [hst] at hb
        contradiction
      | cons c l =>
        rw [hst, List.cons_append, List.tail_cons] at hb
        rcases List.mem_append.1 hb with hb | hb
        · exact hs.files b (by rw [hst]; exact hb)
        · obtain rfl : b = a := by simpa using hb
          exact (entry_eq_text he).2

theorem start_eq_ok (h : p.start source tagged script = .ok s) :
    s.stack = [(Path.ofText source).address p.tree.here] ∧ s.frames = [⟨source, tagged, [], sourceLines script⟩] := by
  rw [start] at h
  split at h
  · contradiction
  · cases h
    exact ⟨rfl, rfl⟩

theorem Visits.orderly (h : p.Visits source tagged script s) : p.Orderly s := by
  apply Visits.invariant _ (fun _ _ _ hs hm => hm.change.orderly hs) h
  intro s₀ h₀
  obtain ⟨hstack, hframes⟩ := start_eq_ok h₀
  refine ⟨?_, ?_, ?_⟩
  · rw [hstack, hframes]
    rfl
  · rw [hstack]
    simp
  · rw [hstack]
    simp

theorem Includes.sound {f : Frame} {outer : List Frame} {raw : Text} {rest : List Text}
    (h : p.Includes s f outer raw rest i) (hh : p.tree.here.Canonical) : i.path.Sound := by
  obtain ⟨d, requested, -, -, -, hi⟩ := h.asks
  rw [(Include.resolve_eq_ok_iff.1 hi).path]
  exact Include.sound_target hh

theorem Change.stack_eq (h : p.Change s s') (hh : p.tree.here.Canonical) (hs : s.stack = s.active p.tree.here) :
    s'.stack = s'.active p.tree.here := by
  rw [RunState.active] at hs ⊢
  cases h with
  | stay hstack hsources => rw [hstack, hsources, hs]
  | close hframes hstack =>
    rw [hstack, hs, hframes]
    simp
  | enter hi he hstack hsources _ =>
    rw [hstack, hsources, hs, (entry_eq_text he).1, List.map_cons, Path.ofText_toText (hi.sound hh),
      List.reverse_cons]

theorem Visits.stack_eq (h : p.Visits source tagged script s) (hh : p.tree.here.Canonical) :
    s.stack = s.active p.tree.here := by
  apply Visits.invariant _ (fun _ _ _ hs hm => hm.change.stack_eq hh hs) h
  intro s₀ h₀
  obtain ⟨hstack, hframes⟩ := start_eq_ok h₀
  rw [RunState.active, hstack, hframes]
  rfl

theorem Visits.canonical (h : p.Visits source tagged script s) (hh : p.tree.here.Canonical) :
    ∀ a ∈ s.stack, a.Canonical := by
  intro a ha
  rw [h.stack_eq hh, RunState.active, List.mem_reverse] at ha
  obtain ⟨n, -, rfl⟩ := List.mem_map.1 ha
  apply Path.canonical_address hh
  exact Path.sound_ofText n

/-- Steps after each of which at least `k` files are open. -/
def Keeps (p : Project) (k : Nat) : RunState → RunState → Prop :=
  Relation.ReflTransGen fun s s' => p.Moves s s' ∧ k ≤ s'.frames.length

theorem Keeps.reaches {k : Nat} (h : p.Keeps k s t) : p.Reaches s t :=
  Relation.ReflTransGen.mono (fun _ _ hm => hm.1) _ _ h

theorem Keeps.stack_prefix (h : p.Visits source tagged script s) (hk : p.Keeps s.frames.length s t) :
    s.stack <+: t.stack := by
  induction hk with
  | refl => exact List.prefix_rfl
  | @tail t t' hr hm ih =>
    have ht := h.trans (Keeps.reaches hr)
    have ho := h.orderly
    have ho' := (ht.next hm.1).orderly
    cases hm.1.change with
    | stay hstack _ => exact hstack ▸ ih
    | close hframes hstack =>
      apply List.prefix_of_prefix_length_le ih (hstack ▸ List.dropLast_prefix _)
      rw [ho.depth, ho'.depth]
      exact hm.2
    | enter _ _ hstack _ _ => exact hstack ▸ ih.trans (List.prefix_append _ _)

theorem Visits.stack_eq_of_keeps (h : p.Visits source tagged script s) (hk : p.Keeps s.frames.length s t)
    (hlen : t.frames.length = s.frames.length) : t.stack = s.stack := by
  have ht := h.trans hk.reaches
  have hl : s.stack.length = t.stack.length := by rw [h.orderly.depth, ht.orderly.depth, hlen]
  exact ((Keeps.stack_prefix h hk).eq_of_length hl).symm

end Project

end ScriptMacros
