import ScriptMacros.Proofs.Filling

namespace ScriptMacros

def Segment.reindex (f : Nat → Nat) : Segment → Segment
  | literal c => literal c
  | argument i quoted => argument (f i) quoted

namespace Template

def Parameter.reindex (f : Nat → Nat) (q : Parameter) : Parameter := ⟨q.name, f q.index⟩

def Use.reindex (f : Nat → Nat) (u : Use) : Use := ⟨u.marks, u.parameter.reindex f⟩

variable {names names' arguments arguments' : List Text} {ps ps' : List Parameter} {before : Option CodePoint}
  {body name other : Text} {q : Parameter} {f : Nat → Nat}

theorem LongestStanding.unique (h : LongestStanding names before body name)
    (h' : LongestStanding names before body other) : name = other := by
  obtain ⟨-, -, r, hr, -⟩ := h.stands
  obtain ⟨-, -, r', hr', -⟩ := h'.stands
  have hlength := Nat.le_antisymm (h'.length_le name h.stands) (h.length_le other h'.stands)
  exact (List.append_inj (hr.symm.trans hr') hlength).1

theorem LongestStanding.mono (hnames : ∀ n, n ∈ names ↔ n ∈ names') (h : LongestStanding names before body name) :
    LongestStanding names' before body name := by
  refine ⟨⟨(hnames name).1 h.stands.1, h.stands.2⟩, ?_⟩
  intro other hother
  exact h.length_le other ⟨(hnames other).2 hother.1, hother.2⟩

theorem parameterAt?_eq_some_iff : parameterAt? (parameters names) before body = some q ↔
    LongestStanding names before body q.name ∧ q.index = names.idxOf q.name := by
  constructor
  · exact longestStanding_of_parameterAt?
  · rintro ⟨hlongest, hindex⟩
    cases h : parameterAt? (parameters names) before body with
    | none => exact absurd hlongest.stands (parameterAt?_eq_none h)
    | some p =>
      obtain ⟨hlongest', hindex'⟩ := longestStanding_of_parameterAt? h
      obtain ⟨n, i⟩ := p
      obtain rfl : n = q.name := hlongest'.unique hlongest
      obtain rfl : i = q.index := hindex'.trans hindex.symm
      rfl

theorem parameterAt?_reindex (hnames : ∀ n, n ∈ names ↔ n ∈ names')
    (hf : ∀ n ∈ names, f (names.idxOf n) = names'.idxOf n) (before : Option CodePoint) (body : Text) :
    parameterAt? (parameters names') before body =
      (parameterAt? (parameters names) before body).map (Parameter.reindex f) := by
  apply Option.ext
  intro q
  rw [parameterAt?_eq_some_iff, Option.map_eq_some_iff]
  constructor
  · rintro ⟨hlongest, hindex⟩
    have hlongest := hlongest.mono fun n => (hnames n).symm
    refine ⟨⟨q.name, names.idxOf q.name⟩, parameterAt?_eq_some_iff.2 ⟨hlongest, rfl⟩, ?_⟩
    rw [Parameter.reindex, hf q.name hlongest.stands.1, ← hindex]
  · rintro ⟨p, hp, rfl⟩
    obtain ⟨hlongest, hindex⟩ := parameterAt?_eq_some_iff.1 hp
    refine ⟨hlongest.mono hnames, ?_⟩
    rw [Parameter.reindex, hindex]
    exact hf p.name hlongest.stands.1

theorem map_reindex_unpaired (f : Nat → Nat) (marks : Nat) :
    (unpaired marks).map (Segment.reindex f) = unpaired marks := by
  simp [unpaired, Segment.reindex]

theorem segments_reindex (f : Nat → Nat) (u : Use) : (u.reindex f).segments = u.segments.map (Segment.reindex f) := by
  rw [Use.segments, Use.segments]
  by_cases h : u.marks = 1
  · simp [Use.reindex, Parameter.reindex, Segment.reindex, h]
  · rw [if_neg h, List.map_append, map_reindex_unpaired]
    exact if_neg h

section

variable (h : ∀ before body, parameterAt? ps' before body = (parameterAt? ps before body).map (Parameter.reindex f))

include h

theorem useAt?_reindex (before : Option CodePoint) (body : Text) :
    useAt? ps' before body = (useAt? ps before body).map (Use.reindex f) := by
  induction body generalizing before with
  | nil =>
    rw [useAt?, useAt?, h, Option.map_map, Option.map_map]
    rfl
  | cons c body ih =>
    rw [useAt?, useAt?, h, ih]
    by_cases hc : c = '#'
    · rw [if_pos hc, if_pos hc]
      cases useAt? ps (some (.char '#')) body with
      | none =>
        dsimp only [Option.map_none]
        rw [Option.map_map, Option.map_map]
        rfl
      | some u => rfl
    · rw [if_neg hc, if_neg hc]
      dsimp only
      rw [Option.map_map, Option.map_map]
      rfl

theorem segmentsFrom_reindex (n : Nat) (before : Option CodePoint) (body : Text) :
    segmentsFrom ps' n before body = (segmentsFrom ps n before body).map (Segment.reindex f) := by
  fun_induction segmentsFrom ps n before body with
  | case1 before =>
    rw [segmentsFrom, useAt?_reindex h]
    cases useAt? ps before [] with
    | none => rfl
    | some u => exact segments_reindex f u
  | case2 => rfl
  | case3 before n c body ih => exact ih
  | case4 before c body u hu hlen ih =>
    have hlen' : (u.reindex f).length = 0 := hlen
    rw [segmentsFrom, useAt?_reindex h, hu]
    simp only [Option.map_some, hlen', List.map_append, segments_reindex, List.map_cons, ih]
    rfl
  | case5 before c body u hu n hlen ih =>
    have hlen' : (u.reindex f).length = n + 1 := hlen
    rw [segmentsFrom, useAt?_reindex h, hu]
    simp only [Option.map_some, hlen', List.map_append, segments_reindex, ih]
  | case6 before c body hu n hn ih =>
    rw [segmentsFrom, useAt?_reindex h, hu]
    simp only [Option.map_none, hn, List.map_append, map_reindex_unpaired, ih]
  | case7 before c body hu hn ih =>
    rw [segmentsFrom, useAt?_reindex h, hu]
    simp only [Option.map_none, ih]
    rfl

end

theorem fill_map_reindex {t : Template}
    (h : ∀ i quoted, .argument i quoted ∈ t → arguments'.getD (f i) [] = arguments.getD i []) :
    fill arguments' (t.map (Segment.reindex f)) = fill arguments t := by
  rw [fill, fill, List.flatMap_map]
  apply List.flatMap_congr
  intro segment hsegment
  cases segment with
  | literal c => rfl
  | argument i quoted =>
    have hvalue := h i quoted hsegment
    cases quoted
    · exact hvalue
    · simp only [Segment.reindex, Segment.fill, hvalue]

end Template

section

variable {pairs pairs' : List (Text × Text)}

def placeIn (pairs pairs' : List (Text × Text)) (i : Nat) : Nat :=
  (pairs'.map Prod.fst).idxOf ((pairs.map Prod.fst).getD i [])

theorem getElem?_placeIn (hperm : pairs.Perm pairs') (hnodup : (pairs.map Prod.fst).Nodup) {i : Nat}
    (hi : i < pairs.length) : pairs'[placeIn pairs pairs' i]? = pairs[i]? := by
  have hnodup' : (pairs'.map Prod.fst).Nodup := (hperm.map Prod.fst).nodup_iff.1 hnodup
  obtain ⟨j, hj, hpair⟩ := List.getElem_of_mem (hperm.subset (List.getElem_mem hi))
  have hplace : placeIn pairs pairs' i = j := by
    have hlength : j < (pairs'.map Prod.fst).length := by simpa
    have hname : (pairs.map Prod.fst).getD i [] = (pairs'.map Prod.fst)[j] := by simp [hi, hpair]
    rw [placeIn, hname]
    exact hnodup'.idxOf_getElem j hlength
  rw [hplace, List.getElem?_eq_getElem hj, hpair, List.getElem?_eq_getElem hi]

theorem substitute_perm (hnodup : (pairs.map Prod.fst).Nodup) (hperm : pairs.Perm pairs') (body : Text) :
    substitute body (pairs.map Prod.fst) (pairs.map Prod.snd) =
      substitute body (pairs'.map Prod.fst) (pairs'.map Prod.snd) := by
  have htake : ∀ l : List (Text × Text), (l.map Prod.fst).take (l.map Prod.snd).length = l.map Prod.fst := by simp
  have hnames : ∀ n, n ∈ pairs.map Prod.fst ↔ n ∈ pairs'.map Prod.fst := fun n => (hperm.map Prod.fst).mem_iff
  have hplace : ∀ n ∈ pairs.map Prod.fst,
      placeIn pairs pairs' ((pairs.map Prod.fst).idxOf n) = (pairs'.map Prod.fst).idxOf n := by
    intro n hn
    rw [placeIn, List.getD_eq_getElem?_getD, List.getElem?_idxOf hn]
    rfl
  rw [substitute, substitute, htake, htake, Template.ofBody, Template.ofBody,
    Template.segmentsFrom_reindex (Template.parameterAt?_reindex hnames hplace), Template.fill_map_reindex]
  intro i quoted hi
  -- A template asks for no argument beyond those of its parameters.
  have hlt := (Template.reads_segmentsFrom _ 0 none body).index_lt hi
  rw [List.length_map] at hlt
  simp [getElem?_placeIn hperm hnodup hlt]

theorem substitute_perm_overlapping :
    let pairs := [("a", "1"), ("#b", "2"), ("a_", "3"), ("b_", "a"), ("a_1", "")].map fun (n, a) => (n.toText, a.toText)
    let body := "#a##b a_#b_ ##a_1#a_#b a".toText
    (pairs.map Prod.fst).Nodup ∧ pairs.Perm pairs.reverse ∧
      substitute body (pairs.map Prod.fst) (pairs.map Prod.snd) =
        substitute body (pairs.reverse.map Prod.fst) (pairs.reverse.map Prod.snd) ∧
      substitute body (pairs.map Prod.fst) (pairs.map Prod.snd) = "\"1\"\"2\" 3\"a\" \"3\"2 1".toText := by
  intro pairs body
  have hnodup : (pairs.map Prod.fst).Nodup := by decide
  have hperm : pairs.Perm pairs.reverse := pairs.reverse_perm.symm
  exact ⟨hnodup, hperm, substitute_perm hnodup hperm body, by decide +kernel⟩

end

end ScriptMacros
