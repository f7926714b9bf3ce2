import ScriptMacros.Association
import ScriptMacros.DiskName
import ScriptMacros.Path

/-!
Trees of files, and looking up paths in them one name at a time. There are no links, so what a path leads to
stands at the address that its text gives (`find_eq_ok`). Different addresses may lead to one place, but only
finitely many addresses lead to files (`mem_addresses_of_file?`).
-/

namespace ScriptMacros

structure Rights where
  read : Bool := true
  write : Bool := true
deriving DecidableEq, Repr

inductive Node where
  | file (bytes : List UInt8) (rights : Rights := {})
  | directory (rights : Rights := {})
deriving DecidableEq, Repr

def Address.place? : Address → Option Place
  | [] => some []
  | n :: a =>
    match DiskName.ofText? n, Address.place? a with
    | some k, some p => some (k :: p)
    | _, _ => none

theorem Address.mem_spellings {a : Address} {p : Place} (h : a.place? = some p) : a ∈ p.spellings := by
  induction a generalizing p with
  | nil =>
    obtain rfl : p = [] := by simpa [place?] using h.symm
    simp [Place.spellings]
  | cons n a ih =>
    rw [place?] at h
    split at h
    · next k q hn ha =>
      obtain rfl : k :: q = p := by simpa using h
      exact List.mem_flatMap.2 ⟨n, DiskName.mem_spellings hn, List.mem_map.2 ⟨a, ih ha, rfl⟩⟩
    · simp at h

/-- A tree of files: what stands at each place, and the address of the current directory. -/
structure FileTree where
  nodes : List (Place × Node)
  here : Address
deriving DecidableEq, Repr

namespace FileTree

inductive Fault where
  | missing
  | notDirectory
  | isDirectory
  | nameTooLong
  | denied
  | nulInName
  | surrogates (f : Encoding.EncodeFault)
deriving DecidableEq, Repr

def Fault.message (f : Fault) (path : Text) : Text :=
  let numbered (n : Nat) (what : String) :=
    "[Errno ".toText ++ Text.ofNat n ++ "] ".toText ++ what.toText ++ ": ".toText ++ path.quoted
  match f with
  | missing => numbered 2 "No such file or directory"
  | notDirectory => numbered 20 "Not a directory"
  | isDirectory => numbered 21 "Is a directory"
  | nameTooLong => numbered 36 "File name too long"
  | denied => numbered 13 "Permission denied"
  | nulInName => "embedded null byte".toText
  | surrogates f => f.message

def Fault.isOfSystem : Fault → Bool
  | nulInName | surrogates _ => false
  | _ => true

def node? (t : FileTree) (a : Address) : Option Node :=
  if a = [] then some (.directory {})
  else
    match a.place? with
    | some p => Association.get? p t.nodes
    | none => none

def file? (t : FileTree) (a : Address) : Option (List UInt8) :=
  match t.node? a with
  | some (.file bytes _) => some bytes
  | _ => none

def files (t : FileTree) : List Place :=
  t.nodes.filterMap fun (p, n) => match n with
    | .file .. => some p
    | .directory _ => none

def addresses (t : FileTree) : List Address := t.files.flatMap Place.spellings

theorem mem_addresses_of_file? {t : FileTree} {a : Address} {bytes : List UInt8} (h : t.file? a = some bytes) :
    a ∈ t.addresses := by
  rw [file?] at h
  split at h
  · next b r hb =>
    rw [node?] at hb
    split at hb
    · simp at hb
    · split at hb
      · next p hp =>
        have hf : p ∈ t.files := List.mem_filterMap.2 ⟨(p, .file b r), Association.mem_keys_of_get? hb, rfl⟩
        exact List.mem_flatMap.2 ⟨p, hf, Address.mem_spellings hp⟩
      · simp at hb
  · simp at h

def addressBound (t : FileTree) : Nat := t.files.foldr (fun p n => p.spellingBound + n) 0

theorem length_addresses_le (t : FileTree) : t.addresses.length ≤ t.addressBound := by
  rw [addresses, addressBound]
  induction t.files with
  | nil => simp
  | cons p l ih =>
    have := p.length_spellings_le
    simp only [List.flatMap_cons, List.length_append, List.foldr_cons]
    omega

def nameLimit : Nat := 255

def pathLimit : Nat := 4096

def byteCount (n : Text) : Nat := ((DiskName.ofText? n).getD []).length

def walk (t : FileTree) : Address → List Text → Except Fault Address
  | a, [] => .ok a
  | a, n :: ns =>
    match t.node? a with
    | none => .error .missing
    | some (.file ..) => .error .notDirectory
    | some (.directory r) =>
      if r.read then
        if nameLimit < byteCount n then .error .nameTooLong else walk t (Path.step a n) ns
      else .error .denied

theorem walk_eq_ok {t : FileTree} {ns : List Text} {a b : Address} (h : walk t a ns = .ok b) :
    b = ns.foldl Path.step a := by
  induction ns generalizing a with
  | nil => simpa [walk, eq_comm] using h
  | cons n ns ih =>
    rw [walk] at h
    split at h <;> try contradiction
    split at h <;> try contradiction
    split at h
    · contradiction
    · exact ih h

def soundLength (whole : Text) : Except Fault Nat :=
  match DiskName.ofText whole with
  | .error f => .error (.surrogates f)
  | .ok bytes => if bytes.contains 0 then .error .nulInName else .ok bytes.length

/-- Asks about the names of a path one after another, each behind those before it, a name that leads up having taken one
of them away. The answers do not matter, but a name can be one that cannot be asked about. -/
def askAlong (anchor : Anchor) : (passed : List Text) → List Text → Except Fault Unit
  | _, [] => .ok ()
  | passed, n :: ns =>
    if n = Path.up then askAlong anchor (Path.upFrom anchor passed) ns
    else
      match soundLength (Path.toText ⟨anchor, passed ++ [n]⟩) with
      | .error f => .error f
      | .ok _ => askAlong anchor (passed ++ [n]) ns

def askSource (source : Text) : Except Fault Unit :=
  let p := Path.ofText source
  askAlong (if p.anchor = .relative then .relative else .root) [] p.names

def locate (t : FileTree) (whole : Text) (start : Address) (names : List Text) :
    Except Fault (Address × Node) :=
  match soundLength whole with
  | .error f => .error f
  | .ok length =>
    if pathLimit ≤ length then .error .nameTooLong
    else
      match walk t start names with
      | .error f => .error f
      | .ok a =>
        match t.node? a with
        | none => .error .missing
        | some n => .ok (a, n)

def find (t : FileTree) (p : Path) : Except Fault (Address × Node) :=
  t.locate p.toText (p.start t.here) p.names

def findWritten (t : FileTree) (path : Text) : Except Fault (Address × Node) :=
  if path = [] then .error .missing
  else t.locate path (if path.head? = some (.char '/') then [] else t.here) (path.splitOn (.char '/'))

/-- Whether a path leads to a file. A path that leads nowhere does not; one that is too long, or that goes through a
directory in which nothing may be looked up, gets no answer. -/
def isFile (t : FileTree) (p : Path) : Except Fault Bool :=
  match t.find p with
  | .ok (_, .file ..) => .ok true
  | .ok (_, .directory _) => .ok false
  | .error .nameTooLong => .error .nameTooLong
  | .error .denied => .error .denied
  | .error _ => .ok false

def read (t : FileTree) (p : Path) : Except Fault (List UInt8) :=
  match t.find p with
  | .ok (_, .file bytes r) => if r.read then .ok bytes else .error .denied
  | .ok (_, .directory r) => .error (if r.read then .isDirectory else .denied)
  | .error f => .error f

theorem locate_eq_ok {t : FileTree} {whole : Text} {start a : Address} {names : List Text} {n : Node}
    (h : t.locate whole start names = .ok (a, n)) :
    (∃ k, soundLength whole = .ok k ∧ k < pathLimit) ∧ t.walk start names = .ok a ∧ t.node? a = some n := by
  rw [locate] at h
  split at h <;> try contradiction
  next k hk =>
    split at h <;> try contradiction
    next hlimit =>
      split at h <;> try contradiction
      next b hb =>
        split at h <;> try contradiction
        next m hm =>
          cases h
          exact ⟨⟨k, hk, Nat.not_le.1 hlimit⟩, hb, hm⟩

theorem find_eq_ok {t : FileTree} {p : Path} {a : Address} {n : Node} (h : t.find p = .ok (a, n)) :
    a = p.address t.here ∧ t.node? a = some n := by
  obtain ⟨-, hwalk, hnode⟩ := locate_eq_ok h
  exact ⟨walk_eq_ok hwalk, hnode⟩

theorem read_eq_ok {t : FileTree} {p : Path} {bytes : List UInt8} (h : t.read p = .ok bytes) :
    t.file? (p.address t.here) = some bytes := by
  rw [read] at h
  split at h <;> try contradiction
  next a b r hf =>
    split at h <;> try contradiction
    cases h
    obtain ⟨ha, hn⟩ := find_eq_ok hf
    simp [file?, ← ha, hn]

def remaining (t : FileTree) (active : List Address) : Nat := (t.addresses.filter (· ∉ active)).length

theorem remaining_le (t : FileTree) (active : List Address) : t.remaining active ≤ t.addressBound :=
  Nat.le_trans (List.length_filter_le ..) t.length_addresses_le

theorem remaining_lt {t : FileTree} {active : List Address} {a : Address} (h : a ∉ active)
    (hf : a ∈ t.addresses) : t.remaining (active ++ [a]) < t.remaining active := by
  have hs : t.addresses.filter (· ∉ active ++ [a]) = (t.addresses.filter (· ∉ active)).filter (· ≠ a) := by
    rw [List.filter_filter]
    congr 1
    funext b
    simp [and_comm]
  rw [remaining]
  rw [hs]
  exact List.length_filter_lt_length_iff_exists.2 ⟨a, List.mem_filter.2 ⟨hf, by simpa using h⟩, by simp⟩

def makeDirectory (t : FileTree) (a : Address) : FileTree :=
  match a.place? with
  | none => t
  | some p =>
    let add := fun nodes i => Association.putNew (p.take (i + 1)) (.directory {}) nodes
    { t with nodes := (List.range p.length).foldl add t.nodes }

def setFile (t : FileTree) (a : Address) (bytes : List UInt8) (r : Rights := {}) : FileTree :=
  match a.place? with
  | none => t
  | some p => { t with nodes := Association.put p (.file bytes r) t.nodes }

def putFile (t : FileTree) (a : Address) (bytes : List UInt8) : FileTree :=
  (t.makeDirectory a.dropLast).setFile a bytes

def write (t : FileTree) (p : Path) (bytes : List UInt8) : Except Fault FileTree :=
  match t.find p with
  | .ok (_, .directory _) => .error .isDirectory
  | .ok (a, .file _ r) => if r.write then .ok (t.setFile a bytes r) else .error .denied
  | .error .missing =>
    match t.find p.parent with
    | .ok (_, .directory r) => if r.write then .ok (t.setFile (p.address t.here) bytes) else .error .denied
    | .ok (_, .file ..) => .error .notDirectory
    | .error f => .error f
  | .error f => .error f

def changes (t later : FileTree) : List (Text × List UInt8) :=
  let here := t.here.place?.getD []
  let changed := later.nodes.filterMap fun (p, n) =>
    match n with
    | .directory _ => none
    | .file bytes r =>
      if Association.get? p t.nodes = some (.file bytes r) then none
      else (Text.after? here p).map fun rest => (List.intercalate ['/'] (rest.map fun k => k.written), bytes)
  changed.mergeSort fun p q => Text.le p.1 q.1

end FileTree

end ScriptMacros
