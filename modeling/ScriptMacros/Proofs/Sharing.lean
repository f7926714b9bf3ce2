import ScriptMacros.Proofs.Layering
import ScriptMacros.Proofs.Unforeseen

/-!
Settings as programs hold them: objects that can be changed in place, each with its prefixes in a map that others may
share. Reading a document makes an object and maps of its own, so the settings that it lies on stay as they are, also
where the document is refused halfway.
-/

namespace ScriptMacros.Options

structure Object where
  map : Nat
  limit : Limit
  encoding : Text
deriving DecidableEq

/-- What is in memory, by address: maps and objects, which all can be changed in place. -/
structure Store where
  maps : List PrefixMap
  objects : List Object
deriving DecidableEq

namespace Store

variable {s s' s'' : Store} {a : Nat}

def Sound (s : Store) : Prop := ∀ o ∈ s.objects, o.map < s.maps.length

def settings (s : Store) (o : Object) : Options := ⟨(s.maps[o.map]?).getD .empty, o.limit, o.encoding⟩

def settingsAt (s : Store) (a : Nat) : Options := (s.objects[a]?).elim {} s.settings

def settingsOf (s : Store) (base : Option Nat) : Options := base.elim {} s.settingsAt

structure Grows (s s' : Store) : Prop where
  maps : s.maps <+: s'.maps
  objects : ∃ new, s'.objects = s.objects ++ new ∧ ∀ o ∈ new, s.maps.length ≤ o.map ∧ o.map < s'.maps.length

theorem Grows.refl (s : Store) : s.Grows s := ⟨List.prefix_rfl, [], by simp, by simp⟩

theorem Grows.sound (h : s.Grows s') (hs : s.Sound) : s'.Sound := by
  obtain ⟨new, hobjects, hnew⟩ := h.objects
  intro o ho
  rw [hobjects] at ho
  rcases List.mem_append.1 ho with ho | ho
  · exact Nat.lt_of_lt_of_le (hs o ho) h.maps.length_le
  · exact (hnew o ho).2

theorem Grows.settingsAt_eq (h : s.Grows s') (hs : s.Sound) (ha : a < s.objects.length) :
    s'.settingsAt a = s.settingsAt a := by
  obtain ⟨maps, hmaps⟩ := h.maps
  obtain ⟨new, hobjects, -⟩ := h.objects
  have hmap := hs _ (List.getElem_mem ha)
  rw [settingsAt, settingsAt, hobjects, List.getElem?_append_left ha, List.getElem?_eq_getElem ha]
  simp only [Option.elim_some, settings, ← hmaps, List.getElem?_append_left hmap]

end Store

abbrev Program := EStateM Fault Store

namespace Program

def newMap (m : PrefixMap) : Program Nat := modifyGet fun s => (s.maps.length, { s with maps := s.maps ++ [m] })

def newObject (o : Options) : Program Nat := do
  let map ← newMap o.prefixes
  modifyGet fun s => (s.objects.length, { s with objects := s.objects ++ [⟨map, o.limit, o.encoding⟩] })

def changeMap (a : Nat) (f : PrefixMap → PrefixMap) : Program Unit :=
  modify fun s => { s with maps := s.maps.modify a f }

def change (a : Nat) (f : Object → Object) : Program Unit :=
  modify fun s => { s with objects := s.objects.modify a f }

def putNew (a : Nat) (l : List (Text × Text)) : Program Unit :=
  l.forM fun (virtual, real) => changeMap a (·.putNew virtual real)

def setPrefixes (path : Text) (fields : List (Text × Json)) (a : Nat) : Program Unit := do
  let some written := written? fields | throw (.invalidPrefixes path)
  let map ← newMap written
  let lower := (← get).settingsAt a
  putNew map lower.prefixes.entries
  change a ({ · with map })

def setLimit (path : Text) (fields : List (Text × Json)) (a : Nat) : Program Unit :=
  match setting? fields "maxExpansions" "max_expansions" with
  | none | some .null => pure ()
  | some v => do
    let some limit := limit? v | throw (.invalidLimit path)
    change a ({ · with limit })

def setEncoding (fields : List (Text × Json)) (a : Nat) : Program Unit :=
  match (Json.field? "encoding".toText fields).filter Json.saysSomething with
  | some v => change a ({ · with encoding := v.toText })
  | none => pure ()

def setFields (path : Text) (fields : List (Text × Json)) (a : Nat) : Program Unit := do
  setPrefixes path fields a
  setLimit path fields a
  setEncoding fields a

def load (tree : FileTree) (path : Text) (base : Option Nat) : Program Nat := do
  let fields ← ofExcept (fieldsIn tree path)
  let lower := (← get).settingsOf base
  let a ← newObject lower
  setFields (Path.ofText path).toText fields a
  return a

variable {maps : List PrefixMap} {objects : List Object} {m : PrefixMap} {o : Object} {path : Text}
  {fields : List (Text × Json)}

theorem run_bind {α β : Type} {x : Program α} {s s' : Store} {v : α} (h : x.run s = .ok v s') (f : α → Program β) :
    (x >>= f).run s = (f v).run s' := by
  rw [EStateM.run] at h
  simp only [EStateM.run, bind, EStateM.bind, h]

theorem run_bind_error {α β : Type} {x : Program α} {s s' : Store} {f : Fault} (h : x.run s = .error f s')
    (g : α → Program β) : (x >>= g).run s = .error f s' := by
  rw [EStateM.run] at h
  simp only [EStateM.run, bind, EStateM.bind, h]

theorem run_newMap (m : PrefixMap) (s : Store) :
    (newMap m).run s = .ok s.maps.length { s with maps := s.maps ++ [m] } := rfl

theorem modify_last {α : Type} (l : List α) (a : α) (f : α → α) : (l ++ [a]).modify l.length f = l ++ [f a] := by
  induction l with
  | nil => rfl
  | cons b l ih => exact congrArg (b :: ·) ih

theorem run_change (f : Object → Object) :
    (change objects.length f).run ⟨maps, objects ++ [o]⟩ = .ok () ⟨maps, objects ++ [f o]⟩ :=
  congrArg (fun l => EStateM.Result.ok () (Store.mk maps l)) (modify_last objects o f)

theorem run_changeMap (f : PrefixMap → PrefixMap) :
    (changeMap maps.length f).run ⟨maps ++ [m], objects⟩ = .ok () ⟨maps ++ [f m], objects⟩ :=
  congrArg (fun l => EStateM.Result.ok () (Store.mk l objects)) (modify_last maps m f)

theorem run_putNew (l : List (Text × Text)) : (putNew maps.length l).run ⟨maps ++ [m], objects⟩ =
    .ok () ⟨maps ++ [l.foldl (fun m p => m.putNew p.1 p.2) m], objects⟩ := by
  induction l generalizing m with
  | nil => rfl
  | cons p l ih =>
    change (changeMap maps.length _ >>= fun _ => putNew maps.length l).run _ = _
    rw [run_bind (run_changeMap _), ih]
    rfl

theorem settingsAt_last : Store.settingsAt ⟨maps, objects ++ [o]⟩ objects.length =
    ⟨(maps[o.map]?).getD .empty, o.limit, o.encoding⟩ := by
  rw [Store.settingsAt, List.getElem?_concat_length]
  rfl

theorem run_setPrefixes {written : PrefixMap} (h : written? fields = some written) (hmap : o.map < maps.length) :
    (setPrefixes path fields objects.length).run ⟨maps, objects ++ [o]⟩ =
      .ok () ⟨maps ++ [written.above ((maps[o.map]?).getD .empty)], objects ++ [{ o with map := maps.length }]⟩ := by
  rw [setPrefixes, h]
  dsimp only
  rw [run_bind (run_newMap ..)]
  change (putNew maps.length (Store.settingsAt ⟨maps ++ [written], objects ++ [o]⟩ objects.length).prefixes.entries >>=
    fun _ => change objects.length ({ · with map := maps.length })).run _ = _
  rw [settingsAt_last, List.getElem?_append_left hmap, run_bind (run_putNew _), run_change]
  rfl

theorem run_setPrefixes_none (h : written? fields = none) (s : Store) (a : Nat) :
    (setPrefixes path fields a).run s = .error (.invalidPrefixes path) s := by
  rw [setPrefixes, h]
  rfl

theorem run_setLimit {limit : Limit} (h : limitOn? fields o.limit = some limit) :
    (setLimit path fields objects.length).run ⟨maps, objects ++ [o]⟩ =
      .ok () ⟨maps, objects ++ [{ o with limit }]⟩ := by
  rw [limitOn?] at h
  rw [setLimit]
  generalize setting? fields "maxExpansions" "max_expansions" = v at h ⊢
  rcases v with _ | v
  · cases h
    rfl
  · cases v with
    | null =>
      cases h
      rfl
    | _ =>
      dsimp only at h ⊢
      rw [h]
      exact run_change _

theorem run_setLimit_none (h : limitOn? fields o.limit = none) (s : Store) (a : Nat) :
    (setLimit path fields a).run s = .error (.invalidLimit path) s := by
  rw [limitOn?] at h
  rw [setLimit]
  generalize setting? fields "maxExpansions" "max_expansions" = v at h ⊢
  rcases v with _ | v
  · contradiction
  · cases v with
    | null => contradiction
    | _ =>
      dsimp only at h ⊢
      rw [h]
      rfl

theorem run_setEncoding : (setEncoding fields objects.length).run ⟨maps, objects ++ [o]⟩ =
    .ok () ⟨maps, objects ++ [{ o with encoding := encodingOn fields o.encoding }]⟩ := by
  rw [setEncoding, encodingOn]
  generalize (Json.field? "encoding".toText fields).filter Json.saysSomething = v
  cases v with
  | none => rfl
  | some v => exact run_change _

theorem setFields_cases (objects : List Object) (path : Text) (fields : List (Text × Json))
    (hmap : o.map < maps.length) :
    (∃ f new o', (setFields path fields objects.length).run ⟨maps, objects ++ [o]⟩ =
        .error f ⟨maps ++ new, objects ++ [o']⟩ ∧ (o'.map = o.map ∨ maps.length ≤ o'.map) ∧
      o'.map < (maps ++ new).length ∧
      fromFields path fields ⟨(maps[o.map]?).getD .empty, o.limit, o.encoding⟩ = .error f) ∨
    ∃ r, (setFields path fields objects.length).run ⟨maps, objects ++ [o]⟩ =
        .ok () ⟨maps ++ [r.prefixes], objects ++ [⟨maps.length, r.limit, r.encoding⟩]⟩ ∧
      fromFields path fields ⟨(maps[o.map]?).getD .empty, o.limit, o.encoding⟩ = .ok r := by
  rw [fromFields_eq, setFields]
  dsimp only
  cases hwritten : written? fields with
  | none =>
    refine Or.inl ⟨_, [], o, ?_, .inl rfl, by simpa using hmap, rfl⟩
    rw [List.append_nil]
    exact run_bind_error (run_setPrefixes_none hwritten _ _) _
  | some written =>
    rw [run_bind (run_setPrefixes hwritten hmap)]
    cases hlimit : limitOn? fields o.limit with
    | none =>
      -- A refused limit leaves the object with its new prefixes, in a map that nothing else has.
      refine Or.inl ⟨_, _, _, run_bind_error (run_setLimit_none hlimit _ _) _, .inr (Nat.le_refl _), ?_, rfl⟩
      simp
    | some limit =>
      refine Or.inr ⟨_, ?_, rfl⟩
      refine (run_bind (run_setLimit (o := { o with map := maps.length }) hlimit) _).trans ?_
      rw [run_setEncoding]

theorem run_load_error {tree : FileTree} {base : Option Nat} {f : Fault} (h : fieldsIn tree path = .error f)
    (s : Store) : (load tree path base).run s = .error f s := by
  rw [load, h]
  rfl

theorem run_load_ok {tree : FileTree} (base : Option Nat) (h : fieldsIn tree path = .ok fields) (s : Store) :
    (load tree path base).run s =
      (setFields (Path.ofText path).toText fields s.objects.length >>= fun _ => pure s.objects.length).run
        ⟨s.maps ++ [(s.settingsOf base).prefixes],
          s.objects ++ [⟨s.maps.length, (s.settingsOf base).limit, (s.settingsOf base).encoding⟩]⟩ := by
  rw [load, h]
  rfl

theorem load_cases (tree : FileTree) (path : Text) (base : Option Nat) (s : Store) :
    (∃ f s', (load tree path base).run s = .error f s' ∧ s.Grows s' ∧
      fromFile tree path (s.settingsOf base) = .error f) ∨
    ∃ o, (load tree path base).run s = .ok s.objects.length ⟨s.maps ++ [(s.settingsOf base).prefixes, o.prefixes],
        s.objects ++ [⟨s.maps.length + 1, o.limit, o.encoding⟩]⟩ ∧
      fromFile tree path (s.settingsOf base) = .ok o := by
  rw [fromFile_eq]
  cases hread : fieldsIn tree path with
  | error f => exact Or.inl ⟨f, s, run_load_error hread s, .refl s, rfl⟩
  | ok fields =>
    rw [run_load_ok base hread]
    -- From here on everything happens in the object and the map that were just made.
    generalize s.settingsOf base = lower
    have hmap : s.maps.length < (s.maps ++ [lower.prefixes]).length := by simp
    have hlower : ((s.maps ++ [lower.prefixes])[s.maps.length]?).getD .empty = lower.prefixes := by simp
    rcases setFields_cases (o := ⟨s.maps.length, lower.limit, lower.encoding⟩) s.objects (Path.ofText path).toText
      fields hmap with ⟨f, new, o', hrun, hnew, hthere, hfields⟩ | ⟨r, hrun, hfields⟩
    · rw [hlower] at hfields
      refine Or.inl ⟨f, _, run_bind_error hrun _, ⟨⟨_, (List.append_assoc ..).symm⟩, [o'], rfl, ?_⟩, hfields⟩
      intro o ho
      obtain rfl := List.mem_singleton.1 ho
      refine ⟨?_, hthere⟩
      rcases hnew with hnew | hnew
      · exact Nat.le_of_eq hnew.symm
      · rw [List.length_append] at hnew
        exact Nat.le_of_add_right_le hnew
    · rw [hlower] at hfields
      refine Or.inr ⟨r, ?_, hfields⟩
      rw [run_bind hrun]
      simp [EStateM.run, pure, EStateM.pure]

/-- Reading a document makes a new object with a map of its own, or fails, and either way everything that was in memory
stays as it was, the settings that it lies on too. It fails as callers expect unless something unforeseen is wrong. -/
theorem load_outcome (tree : FileTree) (path : Text) (base : Option Nat) {s : Store} (hs : s.Sound) :
    ∃ s', s.Grows s' ∧ s'.Sound ∧ (∀ b < s.objects.length, s'.settingsAt b = s.settingsAt b) ∧
      ((∃ a, (load tree path base).run s = .ok a s' ∧ s.objects.length ≤ a ∧ a < s'.objects.length ∧
          fromFile tree path (s.settingsOf base) = .ok (s'.settingsAt a) ∧ ¬Unforeseen tree path) ∨
        ∃ f, (load tree path base).run s = .error f s' ∧ fromFile tree path (s.settingsOf base) = .error f ∧
          (f.isForeseen = false ↔ Unforeseen tree path)) := by
  have hunforeseen := fromFile_unforeseen_iff tree path (s.settingsOf base)
  rcases load_cases tree path base s with ⟨f, s', hrun, hgrows, hfile⟩ | ⟨o, hrun, hfile⟩
  · refine ⟨s', hgrows, hgrows.sound hs, fun b => hgrows.settingsAt_eq hs, .inr ⟨f, hrun, hfile, ?_⟩⟩
    rw [← hunforeseen, hfile]
    simp
  · have hgrows : s.Grows ⟨s.maps ++ [(s.settingsOf base).prefixes, o.prefixes],
        s.objects ++ [⟨s.maps.length + 1, o.limit, o.encoding⟩]⟩ :=
      ⟨List.prefix_append _ _, _, rfl, by simp⟩
    refine ⟨_, hgrows, hgrows.sound hs, fun b => hgrows.settingsAt_eq hs, .inl ⟨_, hrun, Nat.le_refl _, ?_, ?_, ?_⟩⟩
    · simp
    · rw [hfile, settingsAt_last]
      simp
    · rw [← hunforeseen, hfile]
      simp

theorem load_outcome_refused_limit :
    let document := "\x7b\"includePaths\": \x7b\"a\": \"2\"\x7d, \"maxExpansions\": 0\x7d"
    let tree : FileTree := ⟨[([Utf8.encode "o".toList], .file (Utf8.encode document.toList))], []⟩
    let shared : PrefixMap := .ofList [("a".toText, "1".toText)]
    let s : Store := ⟨[shared], [⟨0, .standard, "ascii".toText⟩, ⟨0, .count 5, "utf-8".toText⟩]⟩
    s.Sound ∧ ∃ s', s.Grows s' ∧ s'.Sound ∧
      (load tree "o".toText (some 0)).run s = .error (.invalidLimit "o".toText) s' ∧
      s'.settingsAt 0 = ⟨shared, .standard, "ascii".toText⟩ ∧
      s'.settingsAt 1 = ⟨shared, .count 5, "utf-8".toText⟩ ∧ ¬Unforeseen tree "o".toText := by
  intro document tree shared s
  have hs : s.Sound := by
    change ∀ o ∈ s.objects, o.map < s.maps.length
    decide
  have hfile : fromFile tree "o".toText (s.settingsOf (some 0)) = .error (.invalidLimit "o".toText) := by decide +kernel
  obtain ⟨s', hgrows, hsound, hkept, ⟨a, -, -, -, hok, -⟩ | ⟨f, hrun, herror, hforeseen⟩⟩ :=
    load_outcome tree "o".toText (some 0) hs
  · rw [hfile] at hok
    contradiction
  · rw [hfile] at herror
    cases herror
    refine ⟨hs, s', hgrows, hsound, hrun, (hkept 0 (by decide)).trans rfl, (hkept 1 (by decide)).trans rfl, ?_⟩
    rw [← hforeseen]
    decide

theorem load_unforeseen_byte :
    let tree : FileTree := ⟨[([Utf8.encode "o".toList], .file [0xff])], []⟩
    let f : Fault := .undecodable ⟨Encoding.utf8.shownName, 0xff, 0, 1, "invalid start byte".toText⟩
    (load tree "o".toText none).run ⟨[], []⟩ = .error f ⟨[], []⟩ ∧ f.isForeseen = false ∧
      ¬∀ tree path base s s' f, (load tree path base).run s = .error f s' → f.isForeseen = true := by
  intro tree f
  have hread : fieldsIn tree "o".toText = .error f := by rfl
  have hrun : (load tree "o".toText none).run ⟨[], []⟩ = _ := run_load_error hread _
  exact ⟨hrun, rfl, fun h => absurd (h _ _ _ _ _ _ hrun) (by decide)⟩

end Program

end ScriptMacros.Options
