import ScriptMacros.Options.Environment
import ScriptMacros.Proofs.Integer
import ScriptMacros.Proofs.Result
import ScriptMacros.Proofs.Splitting

namespace ScriptMacros

namespace Association

variable {α β : Type} [DecidableEq α] {k : α} {l u : List (α × β)}

theorem get?_append (k : α) (u l : List (α × β)) : get? k (u ++ l) = (get? k u).or (get? k l) := by
  induction u with
  | nil => rfl
  | cons p u ih =>
    obtain ⟨a, b⟩ := p
    by_cases h : a = k
    · simp [get?, h]
    · simp [get?, h, ih]

theorem get?_eq_none_iff : get? k l = none ↔ k ∉ l.map (·.1) := by
  induction l with
  | nil => simp [get?]
  | cons p l ih =>
    obtain ⟨a, b⟩ := p
    by_cases h : a = k
    · simp [get?, h]
    · simp [get?, h, ih, Ne.symm h]

theorem get?_filter (P : α → Bool) (h : P k = true) : get? k (l.filter fun p => P p.1) = get? k l := by
  induction l with
  | nil => rfl
  | cons p l ih =>
    obtain ⟨a, b⟩ := p
    by_cases hk : a = k
    · simp [get?, hk, h]
    · cases hP : P a <;> simp [get?, hk, hP, ih]

theorem foldl_putNew (hl : (l.map (·.1)).Nodup) :
    l.foldl (fun u p => putNew p.1 p.2 u) u = u ++ l.filter fun p => p.1 ∉ u.map (·.1) := by
  induction l generalizing u with
  | nil => simp
  | cons p l ih =>
    obtain ⟨hp, hl⟩ := List.nodup_cons.1 hl
    rw [List.foldl_cons, ih hl, putNew]
    by_cases h : p.1 ∈ u.map (·.1)
    · rw [if_pos h, List.filter_cons_of_neg (by simpa using h)]
    · -- The keys that follow are not this one, so it hides none of them.
      have hrest : (l.filter fun q => q.1 ∉ (u ++ [p]).map (·.1)) = l.filter fun q => q.1 ∉ u.map (·.1) := by
        apply List.filter_congr
        intro q hq
        have hne : q.1 ≠ p.1 := fun he => hp (List.mem_map.2 ⟨q, hq, he⟩)
        simp [hne]
      rw [if_neg h, hrest, List.filter_cons_of_pos (by simpa using h), List.append_assoc, List.singleton_append]

end Association

namespace PrefixMap

variable {m upper lower : PrefixMap}

def keys (m : PrefixMap) : List Text := m.entries.map (·.1)

def get? (m : PrefixMap) (k : Text) : Option Text := Association.get? k m.entries

theorem entries_above (upper lower : PrefixMap) :
    (upper.above lower).entries = upper.entries ++ lower.entries.filter fun p => p.1 ∉ upper.keys := by
  have hfold : ∀ l : List (Text × Text), (l.foldl (fun m p => m.putNew p.1 p.2) upper).entries =
      l.foldl (fun u p => Association.putNew p.1 p.2 u) upper.entries := by
    intro l
    exact (List.foldl_hom PrefixMap.entries fun _ _ => rfl).symm
  rw [above, hfold, Association.foldl_putNew lower.nodup]
  congr 1
  exact List.filter_congr fun _ _ => decide_eq_decide.2 Iff.rfl

theorem keys_above (upper lower : PrefixMap) :
    (upper.above lower).keys = upper.keys ++ lower.keys.filter (· ∉ upper.keys) := by
  rw [keys, entries_above, List.map_append, keys, keys, List.filter_map]
  rfl

theorem get?_above (upper lower : PrefixMap) (k : Text) :
    (upper.above lower).get? k = (upper.get? k).or (lower.get? k) := by
  rw [get?, entries_above, Association.get?_append]
  by_cases h : k ∈ upper.keys
  · have hsome : (Association.get? k upper.entries).isSome := by
      rw [Option.isSome_iff_ne_none]
      exact fun hnone => Association.get?_eq_none_iff.1 hnone h
    rw [get?, Option.or_of_isSome hsome, Option.or_of_isSome hsome]
  · rw [Association.get?_filter (fun a => decide (a ∉ upper.keys)) (by simpa using h)]
    rfl

theorem entries_inj (h : upper.entries = lower.entries) : upper = lower := by
  cases upper
  cases lower
  cases h
  rfl

theorem empty_above (lower : PrefixMap) : empty.above lower = lower := by
  apply entries_inj
  rw [entries_above]
  exact List.filter_eq_self.2 fun p _ => by simp [keys, empty]

theorem keys_above_above (top middle bottom : PrefixMap) :
    (top.above (middle.above bottom)).keys = top.keys ++ middle.keys.filter (· ∉ top.keys) ++
      bottom.keys.filter fun k => k ∉ top.keys ∧ k ∉ middle.keys := by
  rw [keys_above, keys_above, List.filter_append, List.filter_filter, List.append_assoc]
  congr 2
  apply List.filter_congr
  intro k _
  simp

end PrefixMap

def Limit.AllowsOne (l : Limit) : Prop := ∃ n, l.allowed? = some n ∧ 1 ≤ n

theorem Limit.allowsOne_count {n : Int} (h : 1 ≤ n) : (count n).AllowsOne := ⟨n.toNat, rfl, by omega⟩

namespace Options

/-- What one layer says. A setting is missing where the layer leaves it out. -/
structure Layer where
  prefixes : PrefixMap := .empty
  limit : Option Limit := none
  encoding : Option Text := none

namespace Layer

def above (l : Layer) (base : Options) : Options where
  prefixes := l.prefixes.above base.prefixes
  limit := l.limit.getD base.limit
  encoding := l.encoding.getD base.encoding

/-- The variables say a limit only if one of them is a positive integer, and never an encoding. -/
structure OfVariables (e : Environment) (l : Layer) : Prop where
  prefixes : PrefixMap.parsePairs ((e.includePaths.getD []).splitOn (.char ';')) = .ok l.prefixes
  limit : l.limit = ((e.maxExpansions.bind Text.integer?).filter (1 ≤ ·)).map .count
  encoding : l.encoding = none

inductive Prefixes : Option Json → PrefixMap → Prop
  | missing : Prefixes none .empty
  | object (l : List (Text × Text)) :
      Prefixes (some (.object (l.map fun p => (p.1, .string p.2)))) (.ofList l)

inductive Limits : Option Json → Option Limit → Prop
  | missing : Limits none none
  | null : Limits (some .null) none
  | count {n : Int} : 1 ≤ n → Limits (some (.integer n)) (some (.count n))
  | yes : Limits (some (.bool true)) (some .yes)

/-- Of the two names of a setting, the second counts only where the first does not occur. -/
structure OfFields (fields : List (Text × Json)) (l : Layer) : Prop where
  prefixes : Prefixes ((Json.field? "includePaths".toText fields).or (Json.field? "include_paths".toText fields))
    l.prefixes
  limit : Limits ((Json.field? "maxExpansions".toText fields).or (Json.field? "max_expansions".toText fields)) l.limit
  encoding : l.encoding = ((Json.field? "encoding".toText fields).filter Json.saysSomething).map Json.toText

inductive OfDocument (tree : FileTree) : Option Text → Layer → Prop
  | none : OfDocument tree none {}
  | file {path document : Text} {bytes : List UInt8} {fields : List (Text × Json)} {l : Layer} :
      tree.read (Path.ofText path) = .ok bytes → Encoding.decode .utf8 bytes = .ok document →
      Json.parse (Encoding.unifyLineEnds document) = .ok (.object fields) → OfFields fields l →
      OfDocument tree (some path) l

def ofCommand (prefixes : PrefixMap) (limit : Option Int) : Layer where
  prefixes
  limit := limit.map .count

variable {tree : FileTree} {e : Environment} {document : Option Text} {l : Layer} {lim : Limit}

theorem OfVariables.limit_eq_some_iff (h : OfVariables e l) :
    l.limit = some lim ↔ ∃ t n, e.maxExpansions = some t ∧ t.Spells n ∧ 1 ≤ n ∧ lim = .count n := by
  rw [h.limit, Option.map_eq_some_iff]
  constructor
  · rintro ⟨n, hn, rfl⟩
    obtain ⟨hread, hpos⟩ := Option.filter_eq_some_iff.1 hn
    obtain ⟨t, ht, hspells⟩ := Option.bind_eq_some_iff.1 hread
    exact ⟨t, n, ht, Text.integer?_eq_some_iff.1 hspells, by simpa using hpos, rfl⟩
  · rintro ⟨t, n, ht, hspells, hpos, rfl⟩
    refine ⟨n, Option.filter_eq_some_iff.2 ⟨?_, by simpa using hpos⟩, rfl⟩
    rw [ht, Option.bind_some, Text.integer?_eq_some_iff.2 hspells]

theorem OfVariables.allowsOne (h : OfVariables e l) (hl : l.limit = some lim) : lim.AllowsOne := by
  obtain ⟨t, n, -, -, hpos, rfl⟩ := h.limit_eq_some_iff.1 hl
  exact Limit.allowsOne_count hpos

theorem Limits.allowsOne {v : Option Json} (h : Limits v (some lim)) : lim.AllowsOne := by
  cases h with
  | count hn => exact Limit.allowsOne_count hn
  | yes => exact ⟨1, rfl, Nat.le_refl 1⟩

theorem OfDocument.allowsOne (h : OfDocument tree document l) (hl : l.limit = some lim) : lim.AllowsOne := by
  cases h with
  | none => contradiction
  | file _ _ _ hfields =>
    have hlimits := hfields.limit
    rw [hl] at hlimits
    exact hlimits.allowsOne

theorem allowsOne_above {base : Options} (hl : ∀ lim, l.limit = some lim → lim.AllowsOne)
    (hbase : base.limit.AllowsOne) : (l.above base).limit.AllowsOne := by
  rw [above]
  cases h : l.limit with
  | none => exact hbase
  | some lim => exact hl lim h

theorem empty_above (base : Options) : ({} : Layer).above base = base := by
  rw [above, PrefixMap.empty_above]
  rfl

end Layer

variable {tree : FileTree} {e : Environment} {document : Option Text} {path : Text} {prefixes : PrefixMap}
  {limit : Option Int} {fields : List (Text × Json)} {base o : Options}

theorem setting?_eq (fields : List (Text × Json)) (first second : String) :
    setting? fields first second = (Json.field? first.toText fields).or (Json.field? second.toText fields) := by
  rw [setting?]
  cases Json.field? first.toText fields <;> rfl

theorem mapM_text?_eq_some_iff {l : List (Text × Text)} :
    (fields.mapM fun (field : Text × Json) => field.2.text?.map (field.1, ·)) = some l ↔
      fields = l.map fun p => (p.1, .string p.2) := by
  constructor
  · intro h
    induction fields generalizing l with
    | nil =>
      cases h
      rfl
    | cons f fields ih =>
      rw [List.mapM_cons] at h
      obtain ⟨p, hp, h⟩ := Option.bind_eq_some_iff.1 h
      obtain ⟨r, hr, h⟩ := Option.bind_eq_some_iff.1 h
      cases h
      obtain ⟨k, v⟩ := f
      cases v with
      | string t =>
        cases hp
        rw [List.map_cons, ← ih hr]
      | _ => contradiction
  · rintro rfl
    induction l with
    | nil => rfl
    | cons p l ih =>
      rw [List.map_cons, List.mapM_cons, ih]
      rfl

theorem prefixes?_eq_some_iff {v : Option Json} {m : PrefixMap} :
    prefixes? (v.getD (.object [])) = some m ↔ Layer.Prefixes v m := by
  constructor
  · intro h
    cases v with
    | none =>
      cases h
      exact .missing
    | some v =>
      cases v with
      | object fields =>
        obtain ⟨l, hl, rfl⟩ := Option.map_eq_some_iff.1 h
        rw [mapM_text?_eq_some_iff.1 hl]
        exact .object l
      | _ => contradiction
  · intro h
    cases h with
    | missing => rfl
    | object l => exact congrArg (Option.map _) (mapM_text?_eq_some_iff.2 rfl)

theorem limit?_eq_some_iff {v : Json} {lim : Limit} : limit? v = some lim ↔ Layer.Limits (some v) (some lim) := by
  constructor
  · intro h
    cases v with
    | integer n =>
      rw [limit?] at h
      split at h
      · next hn =>
        cases h
        exact .count hn
      · contradiction
    | bool b =>
      cases b with
      | false => contradiction
      | true =>
        cases h
        exact .yes
    | _ => contradiction
  · intro h
    cases h with
    | count hn => exact if_pos hn
    | yes => rfl

def written? (fields : List (Text × Json)) : Option PrefixMap :=
  prefixes? ((setting? fields "includePaths" "include_paths").getD (.object []))

def limitOn? (fields : List (Text × Json)) (limit : Limit) : Option Limit :=
  match setting? fields "maxExpansions" "max_expansions" with
  | none | some .null => some limit
  | some v => limit? v

def encodingOn (fields : List (Text × Json)) (encoding : Text) : Text :=
  match (Json.field? "encoding".toText fields).filter Json.saysSomething with
  | some v => v.toText
  | none => encoding

theorem fromFields_eq (path : Text) (fields : List (Text × Json)) (base : Options) : fromFields path fields base =
    match written? fields with
    | none => .error (.invalidPrefixes path)
    | some written =>
      match limitOn? fields base.limit with
      | none => .error (.invalidLimit path)
      | some limit => .ok ⟨written.above base.prefixes, limit, encodingOn fields base.encoding⟩ := by
  rw [fromFields, written?]
  cases prefixes? _ <;> rfl

theorem limitOn?_eq_some_iff {limit lim : Limit} : limitOn? fields limit = some lim ↔
    ∃ l, Layer.Limits ((Json.field? "maxExpansions".toText fields).or (Json.field? "max_expansions".toText fields)) l ∧
      lim = l.getD limit := by
  rw [limitOn?, setting?_eq]
  generalize Option.or _ (Json.field? "max_expansions".toText fields) = v
  constructor
  · intro h
    split at h
    · cases h
      exact ⟨none, .missing, rfl⟩
    · cases h
      exact ⟨none, .null, rfl⟩
    · exact ⟨some lim, limit?_eq_some_iff.1 h, rfl⟩
  · rintro ⟨l, hl, rfl⟩
    cases hl with
    | missing | null => rfl
    | count hn => exact limit?_eq_some_iff.2 (.count hn)
    | yes => rfl

theorem encodingOn_eq (fields : List (Text × Json)) (encoding : Text) : encodingOn fields encoding =
    (((Json.field? "encoding".toText fields).filter Json.saysSomething).map Json.toText).getD encoding := by
  rw [encodingOn]
  cases (Json.field? "encoding".toText fields).filter Json.saysSomething <;> rfl

theorem fromFields_eq_ok_iff :
    fromFields path fields base = .ok o ↔ ∃ l, Layer.OfFields fields l ∧ o = l.above base := by
  rw [fromFields_eq]
  constructor
  · intro h
    split at h
    · contradiction
    next m hm =>
    split at h
    · contradiction
    next lim hlim =>
    obtain ⟨l, hlimit, rfl⟩ := limitOn?_eq_some_iff.1 hlim
    cases h
    rw [written?, setting?_eq] at hm
    refine ⟨⟨m, l, _⟩, ⟨prefixes?_eq_some_iff.1 hm, hlimit, rfl⟩, ?_⟩
    rw [encodingOn_eq]
    rfl
  · rintro ⟨l, ⟨hprefixes, hlimit, hencoding⟩, rfl⟩
    have hwritten : written? fields = some l.prefixes := by
      rw [written?, setting?_eq]
      exact prefixes?_eq_some_iff.2 hprefixes
    rw [hwritten, limitOn?_eq_some_iff.2 ⟨l.limit, hlimit, rfl⟩, encodingOn_eq, ← hencoding]
    rfl

def fieldsIn (tree : FileTree) (path : Text) : Except Fault (List (Text × Json)) :=
  let p := Path.ofText path
  match tree.read p with
  | .error f => .error (.unreadable p.toText f)
  | .ok bytes =>
    match Encoding.decode .utf8 bytes with
    | .error f => .error (.undecodable f)
    | .ok t =>
      match Json.parse (Encoding.unifyLineEnds t) with
      | .error f => .error (.invalidDocument p.toText (Encoding.unifyLineEnds t) f)
      | .ok (.object fields) => .ok fields
      | .ok _ => .error (.notObject p.toText)

theorem fromFile_eq (tree : FileTree) (path : Text) (base : Options) : fromFile tree path base =
    (fieldsIn tree path).bind fun fields => fromFields (Path.ofText path).toText fields base := by
  rw [fromFile, fieldsIn]
  dsimp only
  cases tree.read (Path.ofText path) with
  | error f => rfl
  | ok bytes =>
    dsimp only
    cases Encoding.decode .utf8 bytes with
    | error f => rfl
    | ok t =>
      dsimp only
      cases Json.parse (Encoding.unifyLineEnds t) with
      | error f => rfl
      | ok v => cases v <;> rfl

theorem fieldsIn_eq_ok_iff : fieldsIn tree path = .ok fields ↔ ∃ bytes t, tree.read (Path.ofText path) = .ok bytes ∧
    Encoding.decode .utf8 bytes = .ok t ∧ Json.parse (Encoding.unifyLineEnds t) = .ok (.object fields) := by
  rw [fieldsIn]
  constructor
  · intro h
    split at h
    · contradiction
    next bytes hread =>
    split at h
    · contradiction
    next t hdecode =>
    split at h
    · contradiction
    · next hparse =>
      cases h
      exact ⟨bytes, t, hread, hdecode, hparse⟩
    · contradiction
  · rintro ⟨bytes, t, hread, hdecode, hparse⟩
    rw [hread]
    dsimp only
    rw [hdecode]
    dsimp only
    rw [hparse]

theorem fromFile_eq_ok_iff :
    fromFile tree path base = .ok o ↔ ∃ l, Layer.OfDocument tree (some path) l ∧ o = l.above base := by
  rw [fromFile_eq]
  constructor
  · intro h
    obtain ⟨fields, hfields, h⟩ := exists_of_bind_eq_ok h
    obtain ⟨bytes, t, hread, hdecode, hparse⟩ := fieldsIn_eq_ok_iff.1 hfields
    obtain ⟨l, hl, rfl⟩ := fromFields_eq_ok_iff.1 h
    exact ⟨l, .file hread hdecode hparse hl, rfl⟩
  · rintro ⟨l, hl, rfl⟩
    cases hl with
    | file hread hdecode hparse hfields =>
      rw [fieldsIn_eq_ok_iff.2 ⟨_, _, hread, hdecode, hparse⟩]
      exact fromFields_eq_ok_iff.2 ⟨l, hfields, rfl⟩

theorem limit_eq (written : Option Text) :
    Environment.limit written = (((written.bind Text.integer?).filter (1 ≤ ·)).map Limit.count).getD .standard := by
  rw [Environment.limit]
  cases written.bind Text.integer? with
  | none => rfl
  | some n => by_cases hn : 1 ≤ n <;> simp [hn, Option.filter]

theorem ambient_eq_ok_iff : e.options = .ok o ↔ ∃ l, Layer.OfVariables e l ∧ o = l.above {} := by
  rw [Environment.options, limit_eq]
  constructor
  · intro h
    split at h
    · contradiction
    next m hm =>
    cases h
    exact ⟨⟨m, _, none⟩, ⟨hm, rfl, rfl⟩, rfl⟩
  · rintro ⟨⟨m, lim, encoding⟩, ⟨hprefixes, hlimit, hencoding⟩, rfl⟩
    dsimp only at hprefixes hlimit hencoding
    rw [hprefixes, hlimit, hencoding]
    rfl

theorem withPrefixes_eq (o : Options) (m : PrefixMap) :
    o.withPrefixes m = { o with prefixes := m.above o.prefixes } := by
  rw [withPrefixes]
  split
  · next h =>
    obtain rfl : m = .empty := PrefixMap.entries_inj h
    rw [PrefixMap.empty_above]
  · rfl

theorem withLimit_withPrefixes (o : Options) (prefixes : PrefixMap) (limit : Option Int) :
    (o.withPrefixes prefixes).withLimit limit = (Layer.ofCommand prefixes limit).above o := by
  rw [withPrefixes_eq]
  cases limit <;> rfl

theorem build_eq_ok_iff : build tree e document prefixes limit = .ok o ↔
    ∃ ambient written, Layer.OfVariables e ambient ∧ Layer.OfDocument tree document written ∧
      o = (Layer.ofCommand prefixes limit).above (written.above (ambient.above {})) := by
  rw [build]
  constructor
  · intro h
    obtain ⟨lowest, he, h⟩ := exists_of_bind_eq_ok h
    obtain ⟨ambient, hambient, rfl⟩ := ambient_eq_ok_iff.1 he
    cases document with
    | none =>
      obtain rfl := Except.ok.inj h
      refine ⟨ambient, {}, hambient, .none, ?_⟩
      rw [Layer.empty_above]
      exact withLimit_withPrefixes _ prefixes limit
    | some path =>
      obtain ⟨written, hfile, h⟩ := exists_of_bind_eq_ok h
      obtain ⟨l, hl, rfl⟩ := fromFile_eq_ok_iff.1 hfile
      obtain rfl := Except.ok.inj h
      exact ⟨ambient, l, hambient, hl, withLimit_withPrefixes _ prefixes limit⟩
  · rintro ⟨ambient, written, hambient, hwritten, rfl⟩
    rw [ambient_eq_ok_iff.2 ⟨ambient, hambient, rfl⟩, ← withLimit_withPrefixes]
    cases document with
    | none =>
      cases hwritten
      rw [Layer.empty_above]
      rfl
    | some path =>
      dsimp only [bind, Except.bind]
      rw [fromFile_eq_ok_iff.2 ⟨written, hwritten, rfl⟩]
      rfl

/-- Layers of settings override only what they say. Prefixes come in the order of the layers, highest first, each with
what the highest layer that has it says; limit and encoding are those of the highest layer that says one. Prefixes given
with a command change neither of them, and no layer below the command can forbid all replacements. -/
theorem build_layers (h : build tree e document prefixes limit = .ok o) :
    ∃ ambient written : Layer, Layer.OfVariables e ambient ∧ Layer.OfDocument tree document written ∧
      o.prefixes.keys = prefixes.keys ++ written.prefixes.keys.filter (· ∉ prefixes.keys) ++
        ambient.prefixes.keys.filter (fun k => k ∉ prefixes.keys ∧ k ∉ written.prefixes.keys) ∧
      (∀ k, o.prefixes.get? k = (prefixes.get? k).or ((written.prefixes.get? k).or (ambient.prefixes.get? k))) ∧
      o.limit = ((limit.map Limit.count).or (written.limit.or ambient.limit)).getD (.count 1000) ∧
      o.encoding = written.encoding.getD ("utf-8".toText) ∧
      (∀ other, ∃ o', build tree e document other limit = .ok o' ∧ o'.limit = o.limit ∧ o'.encoding = o.encoding) ∧
      ((∀ n, limit = some n → 1 ≤ n) → o.limit.AllowsOne) := by
  obtain ⟨ambient, written, hambient, hwritten, rfl⟩ := build_eq_ok_iff.1 h
  refine ⟨ambient, written, hambient, hwritten, ?_, ?_, ?_, ?_, ?_, ?_⟩
  · exact PrefixMap.keys_above_above prefixes written.prefixes ambient.prefixes
  · intro k
    exact (PrefixMap.get?_above _ _ k).trans (congrArg _ (PrefixMap.get?_above _ _ k))
  · change (limit.map Limit.count).getD (written.limit.getD (ambient.limit.getD (.count 1000))) = _
    rw [Option.getD_or, Option.getD_or]
  · change written.encoding.getD (ambient.encoding.getD _) = _
    rw [hambient.encoding]
    rfl
  · intro other
    exact ⟨_, build_eq_ok_iff.2 ⟨ambient, written, hambient, hwritten, rfl⟩, rfl, rfl⟩
  · intro hone
    apply Layer.allowsOne_above
    · intro lim hlim
      obtain ⟨n, hn, rfl⟩ := Option.map_eq_some_iff.1 hlim
      exact Limit.allowsOne_count (hone n hn)
    · apply Layer.allowsOne_above fun _ => hwritten.allowsOne
      exact Layer.allowsOne_above (fun _ => hambient.allowsOne) (Limit.allowsOne_count (by decide))

theorem build_layers_shared :
    let paths := "\"include_paths\": \x7b\"b\": \"2\", \"a\": \"1\", \"b\": \"3\"\x7d"
    let document := "\x7b" ++ paths ++ ", \"maxExpansions\": null, \"max_expansions\": 9, \"encoding\": 5\x7d"
    let tree : FileTree := ⟨[([Utf8.encode "c".toList], .file (Utf8.encode document.toList))], []⟩
    let e : Environment := ⟨some "c=4; a=0 ;b=9;d=".toText, some " 7 ".toText⟩
    let prefixes : PrefixMap := .ofList [("a".toText, "x".toText)]
    ∃ o, build tree e (some "c".toText) prefixes none = .ok o ∧
      o.prefixes.entries = [("a", "x"), ("b", "3"), ("c", "4"), ("d", "")].map (fun (k, v) =>
        (k.toText, v.toText)) ∧
      ∃ ambient written : Layer, Layer.OfVariables e ambient ∧ Layer.OfDocument tree (some "c".toText) written ∧
        o.limit = (written.limit.or ambient.limit).getD (.count 1000) ∧ o.limit = .count 7 ∧ o.limit.AllowsOne ∧
        o.encoding = written.encoding.getD ("utf-8".toText) ∧ o.encoding = "5".toText := by
  intro paths document tree e prefixes
  let o : Options := ⟨.ofList ([("a", "x"), ("b", "3"), ("c", "4"), ("d", "")].map fun (k, v) =>
    (k.toText, v.toText)), .count 7, "5".toText⟩
  have hbuild : build tree e (some "c".toText) prefixes none = .ok o := by decide +kernel
  obtain ⟨ambient, written, hambient, hwritten, -, -, hlimit, hencoding, -, hone⟩ := build_layers hbuild
  exact ⟨o, hbuild, by decide +kernel, ambient, written, hambient, hwritten, hlimit, rfl, hone (by simp), hencoding,
    rfl⟩

end Options

end ScriptMacros
