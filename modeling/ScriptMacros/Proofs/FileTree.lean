import ScriptMacros.FileTree
import ScriptMacros.Proofs.Splitting

namespace ScriptMacros

namespace Association

variable {α β : Type} [DecidableEq α]

theorem get?_put_self (k : α) (v : β) (l : List (α × β)) : get? k (put k v l) = some v := by
  induction l with
  | nil => exact if_pos rfl
  | cons e l ih =>
    obtain ⟨a, b⟩ := e
    rw [put]
    split
    · next ha => exact if_pos ha
    · next ha => rw [get?, if_neg ha, ih]

theorem get?_put_of_ne {j k : α} (h : j ≠ k) (v : β) (l : List (α × β)) : get? j (put k v l) = get? j l := by
  induction l with
  | nil => exact if_neg (Ne.symm h)
  | cons e l ih =>
    obtain ⟨a, b⟩ := e
    rw [put]
    split
    · next ha =>
      have haj : a ≠ j := fun he => h (he.symm.trans ha)
      rw [get?, get?, if_neg haj, if_neg haj]
    · rw [get?, get?, ih]

theorem put_put (k : α) (v w : β) (l : List (α × β)) : put k w (put k v l) = put k w l := by
  induction l with
  | nil => exact if_pos rfl
  | cons e l ih =>
    obtain ⟨a, b⟩ := e
    rw [put]
    split
    · next ha => rw [put, put, if_pos ha, if_pos ha]
    · next ha => rw [put, put, if_neg ha, if_neg ha, ih]

end Association

theorem DiskName.isSome_ofText?_iff {t : Text} : (ofText? t).isSome ↔ ∀ p ∈ t, (ofPoint? p).isSome := by
  induction t with
  | nil => simp [ofText?]
  | cons p t ih =>
    rw [List.forall_mem_cons, ← ih, ofText?]
    cases ofPoint? p <;> cases ofText? t <;> simp

theorem Path.subset_toText {p : Path} {n : Text} (hn : n ∈ p.names) : n ⊆ p.toText := by
  have hnames : n ⊆ ([.char '/'] : Text).intercalate p.names := (infix_intercalate _ hn).subset
  rw [toText]
  cases p.anchor with
  | relative =>
    dsimp only
    rw [if_neg (List.ne_nil_of_mem hn)]
    exact hnames
  | root => exact List.subset_cons_of_subset _ hnames
  | doubleRoot => exact List.subset_cons_of_subset _ (List.subset_cons_of_subset _ hnames)

theorem Address.place?_concat {a : Address} {n : Text} {q : Place} {k : DiskName} (ha : a.place? = some q)
    (hn : DiskName.ofText? n = some k) : place? (a ++ [n]) = some (q ++ [k]) := by
  induction a generalizing q with
  | nil =>
    cases ha
    rw [List.nil_append, place?, hn]
    rfl
  | cons m a ih =>
    rw [place?] at ha
    split at ha
    · next j r hm hr =>
      cases ha
      rw [List.cons_append, place?, hm, ih hr]
      rfl
    · contradiction

theorem Address.exists_place?_dropLast {a : Address} {q : Place} (h : a.place? = some q) :
    ∃ r, place? a.dropLast = some r := by
  induction a generalizing q with
  | nil => exact ⟨q, h⟩
  | cons m a ih =>
    rw [place?] at h
    split at h
    · next j r hm hr =>
      cases a with
      | nil => exact ⟨[], rfl⟩
      | cons m' a =>
        obtain ⟨s, hs⟩ := ih hr
        refine ⟨j :: s, ?_⟩
        rw [List.dropLast_cons_cons, place?, hm, hs]
    · contradiction

namespace FileTree

variable {t later : FileTree} {p : Path} {a b : Address} {bytes : List UInt8} {n : Node} {q : Place}

theorem exists_place? (h : t.node? a = some n) : ∃ q, a.place? = some q := by
  rw [node?] at h
  split at h
  · next ha => exact ⟨[], ha ▸ rfl⟩
  · split at h
    · next q hq => exact ⟨q, hq⟩
    · contradiction

theorem walk_append (ns ms : List Text) : t.walk a (ns ++ ms) = (t.walk a ns).bind fun b => t.walk b ms := by
  induction ns generalizing a with
  | nil => rfl
  | cons n ns ih =>
    rw [List.cons_append, walk, walk]
    cases t.node? a with
    | none => rfl
    | some m =>
      cases m with
      | file => rfl
      | directory r =>
        dsimp only
        split
        · split
          · rfl
          · exact ih
        · rfl

theorem walk_of_directories {ns : List Text} (h : t.walk a ns = .ok b)
    (hd : ∀ c r, t.node? c = some (.directory r) → later.node? c = some (.directory r)) : later.walk a ns = .ok b := by
  induction ns generalizing a with
  | nil => exact h
  | cons n ns ih =>
    rw [walk] at h ⊢
    split at h
    · contradiction
    · contradiction
    · next r ha =>
      rw [hd a r ha]
      dsimp only
      split at h
      · next hread =>
        rw [if_pos hread]
        split at h
        · contradiction
        · next hshort =>
          rw [if_neg hshort]
          exact ih h
      · contradiction

theorem locate_of_sound {whole : Text} {start : Address} {names : List Text} {k : Nat}
    (hk : soundLength whole = .ok k) (hlimit : k < pathLimit) :
    t.locate whole start names = (t.walk start names).bind fun a =>
      match t.node? a with
      | none => .error .missing
      | some n => .ok (a, n) := by
  rw [locate, hk]
  dsimp only
  rw [if_neg (Nat.not_le.2 hlimit)]
  cases t.walk start names <;> rfl

theorem soundLength_eq_ok {whole : Text} {k : Nat} (h : soundLength whole = .ok k) :
    ∃ bytes, DiskName.ofText? whole = some bytes ∧ bytes.length = k := by
  rw [soundLength, DiskName.ofText] at h
  cases hw : DiskName.ofText? whole with
  | none =>
    rw [hw] at h
    contradiction
  | some bytes =>
    rw [hw] at h
    dsimp only at h
    split at h
    · contradiction
    · cases h
      exact ⟨bytes, rfl, rfl⟩

theorem soundLength_eq_error {whole : Text} {f : Fault} (h : soundLength whole = .error f) :
    f = .nulInName ∨ ∃ e, f = .surrogates e := by
  rw [soundLength] at h
  split at h
  · next e _ =>
    cases h
    exact Or.inr ⟨e, rfl⟩
  · split at h
    · cases h
      exact Or.inl rfl
    · contradiction

theorem sound_of_missing {whole : Text} {start : Address} {names : List Text}
    (h : t.locate whole start names = .error .missing) : ∃ k, soundLength whole = .ok k ∧ k < pathLimit := by
  rw [locate] at h
  cases hk : soundLength whole with
  | error f =>
    rw [hk] at h
    cases h
    rcases soundLength_eq_error hk with he | ⟨e, he⟩ <;> cases he
  | ok k =>
    rw [hk] at h
    dsimp only at h
    split at h
    · cases h
    · next hlimit => exact ⟨k, rfl, Nat.not_le.1 hlimit⟩

theorem exists_place?_step {name : Text} (ha : a.place? = some q) (hn : (DiskName.ofText? name).isSome) :
    ∃ r, (Path.step a name).place? = some r := by
  obtain ⟨k, hk⟩ := Option.isSome_iff_exists.1 hn
  rw [Path.step]
  split
  · exact ⟨q, ha⟩
  · split
    · exact Address.exists_place?_dropLast ha
    · exact ⟨_, Address.place?_concat ha hk⟩

theorem here_setFile (t : FileTree) (a : Address) (bytes : List UInt8) (r : Rights) :
    (t.setFile a bytes r).here = t.here := by
  rw [setFile]
  split <;> rfl

theorem setFile_setFile (t : FileTree) (a : Address) (old bytes : List UInt8) (r : Rights) :
    (t.setFile a old r).setFile a bytes r = t.setFile a bytes r := by
  cases ha : a.place? with
  | none => simp only [setFile, ha]
  | some q => simp only [setFile, ha, Association.put_put]

theorem node?_setFile_of_ne (h : b.place? ≠ a.place?) (t : FileTree) (bytes : List UInt8) (r : Rights) :
    (t.setFile a bytes r).node? b = t.node? b := by
  rw [setFile]
  split
  · rfl
  · next q hq =>
    rw [node?, node?]
    split
    · rfl
    · split
      · next r hr => exact Association.get?_put_of_ne (fun he => h (by rw [hq, hr, he])) _ _
      · rfl

structure Writable (t : FileTree) (p : Path) (a : Address) (r : Rights) : Prop where
  sound : ∃ k, soundLength p.toText = .ok k ∧ k < pathLimit
  walk : t.walk (p.start t.here) p.names = .ok a
  place : ∃ q, a.place? = some q
  node : ∀ d, t.node? a ≠ some (.directory d)
  write : r.write = true
  kept : r = {} ∨ ∃ old, t.node? a = some (.file old r)

theorem writable_of_missing {r : Rights} (h : t.find p = .error .missing)
    (hparent : t.find p.parent = .ok (a, .directory r)) : ∃ b, t.Writable p b {} := by
  obtain ⟨k, hk, hlimit⟩ := sound_of_missing h
  obtain ⟨-, hwalk, hdirectory⟩ := locate_eq_ok hparent
  -- A path without names is its own parent, which cannot be missing and a directory.
  rcases List.eq_nil_or_concat p.names with hnil | ⟨before, name, hnames⟩
  · have hself : p.parent = p := by
      rw [Path.parent, hnil, List.dropLast_nil, ← hnil]
    rw [hself, h] at hparent
    contradiction
  rw [List.concat_eq_append] at hnames
  have hbefore : t.walk (p.start t.here) before = .ok a := by
    rw [Path.parent, hnames, List.dropLast_concat] at hwalk
    exact hwalk
  have hlast : t.walk (p.start t.here) p.names =
      if r.read then if nameLimit < byteCount name then .error .nameTooLong else .ok (Path.step a name)
      else .error .denied := by
    rw [hnames, walk_append, hbefore]
    change t.walk a [name] = _
    rw [FileTree.walk, hdirectory]
    rfl
  rw [find, locate_of_sound hk hlimit, hlast] at h
  split at h
  on_goal 2 => cases h
  next hread =>
  split at h
  · cases h
  next hshort =>
  rw [if_pos hread, if_neg hshort] at hlast
  obtain ⟨q, hq⟩ := exists_place? hdirectory
  have hname : (DiskName.ofText? name).isSome := by
    obtain ⟨bytes, hbytes, -⟩ := soundLength_eq_ok hk
    have hall := DiskName.isSome_ofText?_iff.1 (Option.isSome_iff_exists.2 ⟨bytes, hbytes⟩)
    have hmem : name ∈ p.names := hnames ▸ List.mem_concat_self
    exact DiskName.isSome_ofText?_iff.2 fun c hc => hall c (Path.subset_toText hmem hc)
  refine ⟨_, ⟨k, hk, hlimit⟩, hlast, exists_place?_step hq hname, ?_, rfl, Or.inl rfl⟩
  intro d hnode
  dsimp only [Except.bind] at h
  rw [hnode] at h
  cases h

theorem write_eq_ok (h : t.write p bytes = .ok later) :
    ∃ a r, t.Writable p a r ∧ later = t.setFile a bytes r := by
  rw [write] at h
  split at h
  · contradiction
  · next a old r hfind =>
    split at h <;> try contradiction
    next hwrite =>
    cases h
    obtain ⟨hsound, hwalk, hnode⟩ := locate_eq_ok hfind
    refine ⟨a, r, ⟨hsound, hwalk, exists_place? hnode, ?_, hwrite, Or.inr ⟨old, hnode⟩⟩, rfl⟩
    rw [hnode]
    simp
  · next hmissing =>
    split at h
    · next d r hparent =>
      split at h <;> try contradiction
      cases h
      obtain ⟨a, hw⟩ := writable_of_missing hmissing hparent
      exact ⟨a, {}, hw, by rw [walk_eq_ok hw.walk, Path.address]⟩
    · contradiction
    · contradiction
  · contradiction

namespace Writable

variable {r : Rights} (hw : t.Writable p a r)
include hw

theorem ne_nil : a ≠ [] := by
  rintro rfl
  exact hw.node {} (if_pos rfl)

theorem node?_setFile_self (bytes : List UInt8) (r' : Rights) :
    (t.setFile a bytes r').node? a = some (.file bytes r') := by
  obtain ⟨q, hq⟩ := hw.place
  rw [node?, if_neg hw.ne_nil, setFile, hq]
  exact Association.get?_put_self q _ _

theorem node?_setFile_of_directory {d : Rights} (hb : t.node? b = some (.directory d)) (bytes : List UInt8) :
    (t.setFile a bytes r).node? b = some (.directory d) := by
  obtain ⟨q, hq⟩ := hw.place
  rw [node?] at hb ⊢
  split at hb
  · next hnil =>
    rw [if_pos hnil]
    exact hb
  next hnil =>
  rw [if_neg hnil]
  split at hb
  · next r hr =>
    -- No directory stands where the file is written, so none is lost.
    have hne : r ≠ q := by
      rintro rfl
      apply hw.node d
      rw [node?, if_neg hw.ne_nil, hq]
      exact hb
    rw [setFile, hq]
    exact (Association.get?_put_of_ne hne _ _).trans hb
  · contradiction

theorem find_setFile (bytes : List UInt8) : (t.setFile a bytes r).find p = .ok (a, .file bytes r) := by
  obtain ⟨k, hk, hlimit⟩ := hw.sound
  have hwalk := walk_of_directories hw.walk fun b d hb => hw.node?_setFile_of_directory hb bytes
  rw [find, locate_of_sound hk hlimit, here_setFile, hwalk]
  dsimp only [Except.bind]
  rw [hw.node?_setFile_self]

theorem read_setFile (hread : r.read = true) (bytes : List UInt8) : (t.setFile a bytes r).read p = .ok bytes := by
  rw [read, hw.find_setFile]
  exact if_pos hread

theorem write_setFile (old bytes : List UInt8) :
    (t.setFile a old r).write p bytes = .ok (t.setFile a bytes r) := by
  rw [FileTree.write, hw.find_setFile]
  dsimp only
  rw [if_pos hw.write, setFile_setFile]

end Writable

end FileTree

end ScriptMacros
