import Mathlib.Data.List.TakeWhile
import ScriptMacros.Options.Document
import ScriptMacros.Proofs.Encoding
import ScriptMacros.Proofs.FileTree
import ScriptMacros.Proofs.Spelling

namespace ScriptMacros

theorem Utf8.zero_mem_ofChar {c : Char} : 0 ∈ ofChar c ↔ c = '\x00' := by
  constructor
  · intro hzero
    obtain ⟨b, tail, hbytes, -, -, htail⟩ := ofChar_eq_cons c
    rw [hbytes] at hzero
    rcases List.mem_cons.1 hzero with rfl | hzero
    · have hc : ofChar c ++ [] = ofChar '\x00' ++ tail := by
        rw [List.append_nil, hbytes]
        rfl
      exact (ofChar_append_inj hc).1
    · exact absurd (htail 0 hzero).1 (by decide)
  · rintro rfl
    decide

namespace DiskName

variable {q : CodePoint} {t : Text} {k : DiskName}

theorem zero_mem_ofPoint? (h : ofPoint? q = some k) : 0 ∈ k ↔ q = .char '\x00' := by
  cases q with
  | char c =>
    cases h
    rw [CodePoint.char.injEq]
    exact Utf8.zero_mem_ofChar
  | surrogate d =>
    obtain ⟨b, rfl, hb, -⟩ := eq_escape_of_ofPoint? h
    constructor
    · intro hzero
      obtain rfl := List.mem_singleton.1 hzero
      exact absurd (by decide) hb
    · intro hq
      contradiction

theorem zero_mem_ofText? (h : ofText? t = some k) : 0 ∈ k ↔ .char '\x00' ∈ t := by
  induction t generalizing k with
  | nil =>
    cases h
    simp
  | cons q t ih =>
    rw [ofText?] at h
    split at h
    · next b r hb hr =>
      cases h
      rw [List.mem_append, List.mem_cons, zero_mem_ofPoint? hb, ih hr, eq_comm]
    · contradiction

end DiskName

namespace Path

variable {c : CodePoint} {p : Path}

theorem mem_toText (hslash : c ≠ .char '/') (hpoint : c ≠ .char '.') : c ∈ p.toText ↔ ∃ n ∈ p.names, c ∈ n := by
  constructor
  · intro hc
    have hnames : c ∈ ([.char '/'] : Text).intercalate p.names := by
      obtain ⟨anchor, names⟩ := p
      cases anchor with
      | relative =>
        rw [toText] at hc
        dsimp only at hc
        split at hc
        · exact absurd (List.mem_singleton.1 hc) hpoint
        · exact hc
      | root => exact (List.mem_cons.1 hc).resolve_left hslash
      | doubleRoot => exact (List.mem_cons.1 ((List.mem_cons.1 hc).resolve_left hslash)).resolve_left hslash
    exact (mem_intercalate hnames).resolve_left hslash
  · rintro ⟨n, hn, hc⟩
    exact subset_toText hn hc

theorem mem_toText_ofText (hslash : c ≠ .char '/') (hpoint : c ≠ .char '.') (t : Text) :
    c ∈ (ofText t).toText ↔ c ∈ t := by
  rw [mem_toText hslash hpoint]
  constructor
  · rintro ⟨n, hn, hc⟩
    exact (infix_of_mem_names hn).subset hc
  · intro hc
    have hsplit : ([.char '/'] : Text).intercalate (t.splitOn (.char '/')) = t := List.intercalate_splitOn _
    rw [← hsplit] at hc
    obtain ⟨n, hn, hc⟩ := (mem_intercalate hc).resolve_left hslash
    -- Of the names, only empty ones and single points are dropped.
    have hstay : n ≠ stay := by
      rintro rfl
      exact hpoint (List.mem_singleton.1 hc)
    exact ⟨n, List.mem_filter.2 ⟨hn, decide_eq_true ⟨List.ne_nil_of_mem hc, hstay⟩⟩, hc⟩

end Path

namespace FileTree

variable {tree : FileTree} {whole : Text} {p : Path} {path : Text} {f : Fault}

inductive Fault.Unaskable : Fault → Prop
  | nul : Unaskable .nulInName
  | surrogates (e : Encoding.EncodeFault) : Unaskable (.surrogates e)

theorem not_unaskable_of_walk {a : Address} {ns : List Text} (h : tree.walk a ns = .error f) : ¬f.Unaskable := by
  induction ns generalizing a with
  | nil => contradiction
  | cons n ns ih =>
    rw [walk] at h
    split at h
    · cases h
      rintro ⟨⟩
    · cases h
      rintro ⟨⟩
    · split at h
      · split at h
        · cases h
          rintro ⟨⟩
        · exact ih h
      · cases h
        rintro ⟨⟩

theorem locate_eq_unaskable (hf : f.Unaskable) {start : Address} {names : List Text} :
    tree.locate whole start names = .error f ↔ soundLength whole = .error f := by
  constructor
  · intro h
    rw [locate] at h
    split at h
    · next f' hsound =>
      cases h
      exact hsound
    · split at h
      · cases h
        contradiction
      · split at h
        · next f' hwalk =>
          cases h
          exact absurd hf (not_unaskable_of_walk hwalk)
        · split at h
          · cases h
            contradiction
          · contradiction
  · intro h
    rw [locate, h]

theorem read_eq_unaskable (hf : f.Unaskable) : tree.read p = .error f ↔ soundLength p.toText = .error f := by
  have hfind : tree.find p = .error f ↔ soundLength p.toText = .error f := locate_eq_unaskable hf
  rw [← hfind, read]
  constructor
  · intro h
    split at h
    · split at h
      · contradiction
      · cases h
        contradiction
    · split at h <;> cases h <;> contradiction
    · next f' hfind =>
      cases h
      exact hfind
  · intro h
    rw [h]

theorem soundLength_unaskable_iff :
    (∃ f, soundLength whole = .error f ∧ f.Unaskable) ↔
      .char '\x00' ∈ whole ∨ ∃ c ∈ whole, DiskName.ofPoint? c = none := by
  rw [soundLength, DiskName.ofText]
  cases hbytes : DiskName.ofText? whole with
  | none =>
    have hnone : ∃ c ∈ whole, DiskName.ofPoint? c = none := by
      simpa [hbytes] using (DiskName.isSome_ofText?_iff (t := whole)).not
    exact ⟨fun _ => .inr hnone, fun _ => ⟨_, rfl, .surrogates _⟩⟩
  | some bytes =>
    have hsome : ¬∃ c ∈ whole, DiskName.ofPoint? c = none := by
      rintro ⟨c, hc, hnone⟩
      have hall := DiskName.isSome_ofText?_iff.1 (Option.isSome_iff_exists.2 ⟨bytes, hbytes⟩) c hc
      rw [hnone] at hall
      contradiction
    rw [or_iff_left hsome, ← DiskName.zero_mem_ofText? hbytes]
    dsimp only
    by_cases h : 0 ∈ bytes
    · rw [if_pos (List.contains_iff_mem.2 h)]
      exact ⟨fun _ => h, fun _ => ⟨_, rfl, .nul⟩⟩
    · rw [if_neg (mt List.contains_iff_mem.1 h)]
      refine ⟨?_, fun h' => absurd h' h⟩
      rintro ⟨f, hf, hu⟩
      cases hf

theorem read_unaskable_iff :
    (∃ f, tree.read (Path.ofText path) = .error f ∧ f.Unaskable) ↔
      .char '\x00' ∈ path ∨ ∃ c ∈ path, DiskName.ofPoint? c = none := by
  have hpoints : (∃ c ∈ (Path.ofText path).toText, DiskName.ofPoint? c = none) ↔
      ∃ c ∈ path, DiskName.ofPoint? c = none := by
    refine exists_congr fun c => and_congr_left fun hc => Path.mem_toText_ofText ?_ ?_ path
    · rintro rfl
      contradiction
    · rintro rfl
      contradiction
  rw [← Path.mem_toText_ofText (by decide) (by decide), ← hpoints, ← soundLength_unaskable_iff]
  exact exists_congr fun f => and_congr_left fun hf => read_eq_unaskable hf

end FileTree

namespace Json

variable {t r : Text} {f : Fault} {i start : Nat} {token : Token}

structure Fault.Huge (t : Text) (f : Fault) (digits : Text) : Prop where
  eq : f = .hugeInteger digits.length
  stands : digits <:+: t
  isDigit : ∀ d ∈ digits, d.isDigit = true
  long : integerDigitLimit < digits.length

inductive Token.Carries (f : Fault) : Token → Prop
  | text : Carries f (.badText f)
  | number : Carries f (.badNumber f)

theorem Fault.Huge.mono {u digits : Text} (h : Huge t f digits) (hs : t <:+: u) : Huge u f digits :=
  ⟨h.eq, h.stands.trans hs, h.isDigit, h.long⟩

theorem escapeAt_eq_error (h : escapeAt start i t = .error f) : ∃ p j, f = .problem p j := by
  unfold escapeAt at h
  split at h
  · cases h
    exact ⟨_, _, rfl⟩
  · split at h
    · split at h
      · contradiction
      · cases h
        exact ⟨_, _, rfl⟩
    · split at h
      · contradiction
      · cases h
        exact ⟨_, _, rfl⟩

theorem codesFrom_eq_error {n : Nat} (h : codesFrom start i n t = .error f) : ∃ p j, f = .problem p j := by
  induction t generalizing i n with
  | nil =>
    cases n <;> exact ⟨_, _, (Except.error.inj h).symm⟩
  | cons c t ih =>
    cases n with
    | succ n => exact ih h
    | zero =>
      rw [codesFrom] at h
      split at h
      · contradiction
      · split at h
        · split at h
          · next f' hescape =>
            cases h
            exact escapeAt_eq_error hescape
          · exact ih (map_eq_error_iff.1 h)
        · split at h
          · cases h
            exact ⟨_, _, rfl⟩
          · exact ih (map_eq_error_iff.1 h)

theorem isPrefix_wholeAt (t : Text) : wholeAt t <+: t := by
  rw [wholeAt]
  split
  · next h =>
    obtain ⟨r, rfl⟩ := List.head?_eq_some_iff.1 h
    exact ⟨r, rfl⟩
  · exact List.takeWhile_prefix _

theorem isDigit_of_mem_wholeAt {c : CodePoint} (h : c ∈ wholeAt t) : c.isDigit = true := by
  rw [wholeAt] at h
  split at h
  · obtain rfl := List.mem_singleton.1 h
    rfl
  · exact List.mem_takeWhile_imp h

theorem numberAt?_carries {negative : Bool} {n : Nat} (h : numberAt? negative t = some (token, n))
    (hf : token.Carries f) : ∃ digits, f.Huge t digits := by
  rw [numberAt?] at h
  dsimp only at h
  generalize (if fractionAt _ = [] then 0 else _) = taken at h
  split at h
  · contradiction
  · split at h
    · split at h
      · next hlong =>
        cases h
        cases hf
        exact ⟨wholeAt t, rfl, (isPrefix_wholeAt t).isInfix, fun d => isDigit_of_mem_wholeAt, hlong⟩
      · cases h
        contradiction
    · cases h
      contradiction

theorem wordAt?_eq_some {n : Nat} (h : wordAt? t = some (token, n)) : ∃ v, token = .scalar v := by
  obtain ⟨⟨w, v⟩, -, h⟩ := List.exists_of_findSome?_eq_some h
  obtain ⟨r, -, h⟩ := Option.map_eq_some_iff.1 h
  cases h
  exact ⟨v, rfl⟩

theorem tokenAt_carries {c : CodePoint} {n : Nat} (h : tokenAt i c t = (token, n)) (hf : token.Carries f) :
    (∃ p j, f = .problem p j) ∨ ∃ digits, f.Huge (c :: t) digits := by
  rw [tokenAt] at h
  iterate 6
    split at h
    · cases h
      contradiction
  split at h
  · split at h
    · cases h
      contradiction
    · next f' hcodes =>
      cases h
      cases hf
      exact Or.inl (codesFrom_eq_error hcodes)
  · split at h
    · next found hword =>
      obtain ⟨v, rfl⟩ := wordAt?_eq_some (h ▸ hword)
      contradiction
    · split at h
      · cases hnumber : numberAt? true t with
        | none =>
          rw [hnumber] at h
          cases h
          contradiction
        | some found =>
          rw [hnumber] at h
          cases h
          obtain ⟨digits, hhuge⟩ := numberAt?_carries hnumber hf
          exact Or.inr ⟨digits, hhuge.mono (List.suffix_cons c t).isInfix⟩
      · cases hnumber : numberAt? false (c :: t) with
        | none =>
          rw [hnumber] at h
          cases h
          contradiction
        | some found =>
          rw [hnumber] at h
          cases h
          exact Or.inr (numberAt?_carries hnumber hf)

theorem exists_token_of_mem {n : Nat} (h : (i, token) ∈ tokensFrom start n t) :
    ∃ c u k, c :: u <:+ t ∧ tokenAt i c u = (token, k) := by
  induction t generalizing start n with
  | nil => cases n <;> contradiction
  | cons d t ih =>
    have hrest : ∀ {m k}, (i, token) ∈ tokensFrom m k t → ∃ c u k, c :: u <:+ d :: t ∧ tokenAt i c u = (token, k) := by
      intro m k hmem
      obtain ⟨c, u, k, hsuffix, hat⟩ := ih hmem
      exact ⟨c, u, k, hsuffix.trans (List.suffix_cons d t), hat⟩
    cases n with
    | succ n => exact hrest h
    | zero =>
      rw [tokensFrom] at h
      split at h
      · exact hrest h
      · rcases List.mem_cons.1 h with h | h
        · cases h
          exact ⟨d, t, _, List.suffix_rfl, rfl⟩
        · exact hrest h

theorem begin_eq_error {stack : List Frame} (h : State.begin i stack token = .error f) :
    (∃ p, f = .problem p i) ∨ token.Carries f := by
  unfold State.begin at h
  split at h <;> cases h
  · exact Or.inr .text
  · exact Or.inr .number
  · exact Or.inl ⟨_, rfl⟩

theorem step_eq_error {s : State} (h : s.step i token = .error f) :
    (∃ p, f = .problem p i) ∨ token.Carries f := by
  unfold State.step at h
  split at h
  · exact begin_eq_error h
  · contradiction
  · exact begin_eq_error h
  all_goals cases h
  · exact Or.inr .text
  · exact Or.inr .text
  · exact Or.inl ⟨_, rfl⟩

theorem run_eq_error {s : State} {length : Nat} {l : List (Nat × Token)} (h : s.run length l = .error f) :
    (∃ p j, f = .problem p j) ∨ ∃ j token, (j, token) ∈ l ∧ token.Carries f := by
  induction l generalizing s with
  | nil =>
    cases s <;> cases h <;> exact Or.inl ⟨_, _, rfl⟩
  | cons q l ih =>
    obtain ⟨j, token⟩ := q
    rw [State.run] at h
    split at h
    · rcases ih h with hproblem | ⟨k, token', hmem, hf⟩
      · exact Or.inl hproblem
      · exact Or.inr ⟨k, token', List.mem_cons_of_mem _ hmem, hf⟩
    · next f' hstep =>
      cases h
      rcases step_eq_error hstep with ⟨p, rfl⟩ | hf
      · exact Or.inl ⟨p, j, rfl⟩
      · exact Or.inr ⟨j, token, List.mem_cons_self, hf⟩

theorem parse_eq_error (h : parse t = .error f) : (∃ p j, f = .problem p j) ∨ ∃ digits, f.Huge t digits := by
  rw [parse] at h
  split at h
  · cases h
    exact Or.inl ⟨_, _, rfl⟩
  · rcases run_eq_error h with hproblem | ⟨j, token, hmem, hf⟩
    · exact Or.inl hproblem
    · obtain ⟨c, u, k, hsuffix, hat⟩ := exists_token_of_mem hmem
      rcases tokenAt_carries hat hf with hproblem | ⟨digits, hhuge⟩
      · exact Or.inl hproblem
      · exact Or.inr ⟨digits, hhuge.mono hsuffix.isInfix⟩

end Json

namespace Options

variable {tree : FileTree} {path : Text} {base : Options} {f : Fault}

/-- What goes wrong with a document that nobody is prepared for: its path cannot be asked about, for a NUL or a
surrogate that is no byte of a name, its bytes are no text, or an integer in it is too long to be read. -/
inductive Unforeseen (tree : FileTree) (path : Text) : Prop
  | nul : .char '\x00' ∈ path → Unforeseen tree path
  | surrogate {d : Fin 0x800} : .surrogate d ∈ path → ¬(0x480 ≤ d.val ∧ d.val < 0x500) → Unforeseen tree path
  | noText {bytes : List UInt8} : tree.read (Path.ofText path) = .ok bytes → (∀ t, Utf8.encode t ≠ bytes) →
      Unforeseen tree path
  | hugeInteger {t : List Char} {digits : Text} {f : Json.Fault} :
      tree.read (Path.ofText path) = .ok (Utf8.encode t) →
      Json.parse (Encoding.unifyLineEnds (t.map .char)) = .error f →
      f.Huge (Encoding.unifyLineEnds (t.map .char)) digits → Unforeseen tree path

theorem Unforeseen.of_path (h : .char '\x00' ∈ path ∨ ∃ c ∈ path, DiskName.ofPoint? c = none) :
    Unforeseen tree path := by
  rcases h with hnul | ⟨c, hc, hnone⟩
  · exact .nul hnul
  · cases c with
    | char c => contradiction
    | surrogate d => exact .surrogate hc fun hd => absurd hnone (by rw [DiskName.ofPoint?, if_pos hd]; simp)

theorem Fault.isForeseen_unreadable {p : Text} {f : FileTree.Fault} :
    (unreadable p f).isForeseen = false ↔ f.Unaskable := by
  cases f with
  | nulInName => exact ⟨fun _ => .nul, fun _ => rfl⟩
  | surrogates e => exact ⟨fun _ => .surrogates e, fun _ => rfl⟩
  | _ =>
    constructor
    · intro h
      contradiction
    · rintro ⟨⟩

theorem fromFields_foreseen {p : Text} {fields : List (Text × Json)} (h : fromFields p fields base = .error f) :
    f.isForeseen = true := by
  rw [fromFields] at h
  split at h
  · cases h
    rfl
  · dsimp only at h
    split at h
    · cases h
      rfl
    · contradiction

theorem Unforeseen.of_fromFile (h : fromFile tree path base = .error f) (hf : f.isForeseen = false) :
    Unforeseen tree path := by
  rw [fromFile] at h
  dsimp only at h
  split at h
  · next f' hread =>
    cases h
    rw [Fault.isForeseen_unreadable] at hf
    exact .of_path (FileTree.read_unaskable_iff.1 ⟨f', hread, hf⟩)
  next bytes hread =>
  split at h
  · next f' hdecode =>
    -- A text with these bytes would have been read.
    refine .noText hread fun t ht => ?_
    rw [Encoding.decode_utf8_eq_ok_iff.2 ⟨t, rfl, ht⟩] at hdecode
    contradiction
  next t hdecode =>
  obtain ⟨cs, rfl, rfl⟩ := Encoding.decode_utf8_eq_ok_iff.1 hdecode
  split at h
  · next f' hparse =>
    cases h
    rcases Json.parse_eq_error hparse with ⟨p, j, rfl⟩ | ⟨digits, hhuge⟩
    · contradiction
    · exact .hugeInteger hread hparse hhuge
  · rw [fromFields_foreseen h] at hf
    contradiction
  · cases h
    contradiction

theorem fromFile_unaskable (base : Options) (h : .char '\x00' ∈ path ∨ ∃ c ∈ path, DiskName.ofPoint? c = none) :
    ∃ f, fromFile tree path base = .error f ∧ f.isForeseen = false := by
  obtain ⟨f, hread, hf⟩ := FileTree.read_unaskable_iff.2 h
  rw [fromFile]
  dsimp only
  rw [hread]
  exact ⟨_, rfl, Fault.isForeseen_unreadable.2 hf⟩

theorem Unforeseen.exists_fault (h : Unforeseen tree path) (base : Options) :
    ∃ f, fromFile tree path base = .error f ∧ f.isForeseen = false := by
  cases h with
  | nul hnul => exact fromFile_unaskable base (.inl hnul)
  | @surrogate d hd hnone => exact fromFile_unaskable base (.inr ⟨_, hd, if_neg hnone⟩)
  | noText hread hnone =>
    rw [fromFile]
    dsimp only
    rw [hread]
    dsimp only
    split
    · exact ⟨_, rfl, rfl⟩
    · next t hdecode =>
      obtain ⟨cs, -, hcs⟩ := Encoding.decode_utf8_eq_ok_iff.1 hdecode
      exact absurd hcs (hnone cs)
  | @hugeInteger t digits f hread hparse hhuge =>
    obtain ⟨rfl, -, -, -⟩ := hhuge
    rw [fromFile]
    dsimp only
    rw [hread]
    dsimp only
    rw [Encoding.decode_utf8_eq_ok_iff.2 ⟨t, rfl, rfl⟩]
    dsimp only
    rw [hparse]
    exact ⟨_, rfl, rfl⟩

theorem fromFile_unforeseen_iff (tree : FileTree) (path : Text) (base : Options) :
    (∃ f, fromFile tree path base = .error f ∧ f.isForeseen = false) ↔ Unforeseen tree path := by
  constructor
  · rintro ⟨f, h, hf⟩
    exact .of_fromFile h hf
  · intro h
    exact h.exists_fault base

end Options

end ScriptMacros
