import Mathlib.Data.List.Induction
import ScriptMacros.Proofs.Lockstep
import ScriptMacros.Proofs.Splitting

/-!
What the expansion of a line depends on. Of a macro it sees the name, the parameters and the last of its values, but not
where it was defined; tables that agree in these expand every line alike, and go on to agree. To go through the same
definitions once more changes none of this.
-/

namespace ScriptMacros

structure Outline where
  name : Text
  parameters : Option (List Text)
  values : List Text
deriving DecidableEq, Repr

def Macro.outline (m : Macro) : Outline := ⟨m.name, m.parameters, m.definitions.map (·.value)⟩

def MacroTable.outline (t : MacroTable) : List Outline := t.macros.map Macro.outline

namespace Outline

def latest (o : Outline) : Outline := { o with values := [o.values.getLast?.getD []] }

def toMacro (o : Outline) : Macro where
  name := o.name
  parameters := o.parameters
  definitions := o.values.map fun v => { value := v, location := ⟨[], 0, 0⟩ }

def register (name : Text) (parameters : Option (List Text)) (value : Text) : List Outline → List Outline
  | [] => [⟨name, parameters, [value]⟩]
  | o :: os =>
    if o.name = name then { o with values := o.values ++ [value] } :: os
    else o :: register name parameters value os

end Outline

def Macro.current (m : Macro) : Outline := m.outline.latest

def MacroTable.current (t : MacroTable) : List Outline := t.macros.map Macro.current

theorem Macro.values_current (m : Macro) : m.current.values = [m.body] := by
  rw [current, Outline.latest, outline, List.getLast?_map]
  rfl

theorem Macro.current_extend (m : Macro) (d : Definition) :
    (m.extend d).current = { m.current with values := [d.value] } := by
  rw [← body_extend m d, ← values_current]
  rfl

theorem Macro.body_toMacro (m : Macro) : m.current.toMacro.body = m.body := by
  rw [body, Outline.toMacro, values_current]
  rfl

theorem Macro.invocation?_toMacro (m : Macro) (line : Text) :
    m.current.toMacro.invocation? line = m.invocation? line := by
  rw [invocation?_eq, invocation?_eq]
  congr 1
  funext t
  rw [invocationAt?, invocationAt?, body_toMacro]
  rfl

theorem longestFirst_map {α β : Type} (f : α → β) (size : β → Nat) (l : List α) :
    longestFirst size (l.map f) = (longestFirst (fun a => size (f a)) l).map f := by
  have hinsert : ∀ (a : α) (l : List α),
      insertLongest size (f a) (l.map f) = (insertLongest (fun a => size (f a)) a l).map f := by
    intro a l
    induction l with
    | nil => rfl
    | cons b l ih =>
      rw [List.map_cons, insertLongest, insertLongest]
      split
      · rfl
      · rw [ih, List.map_cons]
  induction l with
  | nil => rfl
  | cons a l ih => rw [List.map_cons, longestFirst, longestFirst, ih, hinsert]

namespace Expansion

theorem mirrors_toMacro (ms : List Macro) :
    Mirrors (fun _ => True) id ms (ms.map fun m => m.current.toMacro) := by
  refine Mirrors.of_map (g := fun m => m.current.toMacro) (e := id) ?_ (fun _ => rfl) (fun _ => Iff.rfl)
    fun _ _ => ⟨rfl, trivial⟩
  intro line _
  apply firstInvocation?_map
  intro m _
  rw [Option.map_id]
  exact m.invocation?_toMacro line

theorem expand_toMacro (ms : List Macro) (line : Text) (limit : Limit) :
    expand (ms.map fun m => m.current.toMacro) limit line = expand ms limit line := by
  have h : expand (ms.map fun m => m.current.toMacro) limit (id line) = (expand ms limit line).map id :=
    (mirrors_toMacro ms).expand trivial limit
  rwa [Except.map_id] at h

end Expansion

namespace MacroTable

variable {t t' : MacroTable}

theorem byLength_toMacro (t : MacroTable) : t.byLength.map (fun m => m.current.toMacro) =
    (longestFirst (·.name.length) t.current).map Outline.toMacro := by
  rw [current, longestFirst_map, List.map_map]
  rfl

theorem expand_congr_current (h : t.current = t'.current) (limit : Limit) (line : Text) :
    t.expand limit line = t'.expand limit line := by
  rw [expand, expand, ← Expansion.expand_toMacro, ← Expansion.expand_toMacro t'.byLength]
  rw [byLength_toMacro, byLength_toMacro, h]

theorem current_eq (t : MacroTable) : t.current = t.outline.map Outline.latest := by
  rw [outline, List.map_map]
  rfl

theorem expand_congr (h : t.outline = t'.outline) (limit : Limit) (line : Text) :
    t.expand limit line = t'.expand limit line :=
  expand_congr_current (by rw [current_eq, current_eq, h]) limit line

theorem outline_registerIn (r : Registration) (ms : List Macro) : (registerIn r ms).map Macro.outline =
    Outline.register r.name r.parameters r.definition.value (ms.map Macro.outline) := by
  induction ms with
  | nil => rfl
  | cons m ms ih =>
    rw [registerIn, List.map_cons, Outline.register]
    by_cases h : m.name = r.name
    · rw [if_pos h, if_pos (show m.outline.name = r.name from h)]
      simp [Macro.outline, Macro.extend]
    · rw [if_neg h, if_neg (show ¬m.outline.name = r.name from h), List.map_cons, ih]

theorem outline_define (t : MacroTable) (r : Registration) :
    (t.define r).outline = Outline.register r.name r.parameters r.definition.value t.outline :=
  outline_registerIn r t.macros

end MacroTable

def Registration.outline (r : Registration) : Outline := ⟨r.name, r.parameters, [r.definition.value]⟩

namespace Outline

def names (os : List Outline) : List Text := os.map (·.name)

def replaced (o c : Outline) : Outline := if c.name = o.name then { c with values := o.values } else c

def assign (os : List Outline) (o : Outline) : List Outline :=
  if (names os).contains o.name then os.map o.replaced else os ++ [o]

def settled (os : List Outline) (c : Outline) : Outline := os.foldl (fun c o => o.replaced c) c

variable {o c : Outline} {os cs : List Outline}

theorem name_replaced (o c : Outline) : (o.replaced c).name = c.name := by
  rw [replaced]
  split <;> rfl

theorem replaced_of_ne (h : c.name ≠ o.name) : o.replaced c = c := if_neg h

theorem names_map_replaced (o : Outline) (os : List Outline) : names (os.map o.replaced) = names os := by
  rw [names, names, List.map_map]
  exact List.map_congr_left fun c _ => name_replaced o c

theorem assign_of_mem (h : o.name ∈ names os) : assign os o = os.map o.replaced := if_pos (List.contains_iff_mem.2 h)

theorem assign_of_notMem (h : o.name ∉ names os) : assign os o = os ++ [o] := if_neg (mt List.contains_iff_mem.1 h)

theorem assign_cons_of_ne (h : c.name ≠ o.name) (os : List Outline) : assign (c :: os) o = c :: assign os o := by
  have hnames : o.name ∈ names (c :: os) ↔ o.name ∈ names os := by simp [names, h.symm]
  by_cases hos : o.name ∈ names os
  · rw [assign_of_mem (hnames.2 hos), assign_of_mem hos, List.map_cons, replaced_of_ne h]
  · rw [assign_of_notMem (mt hnames.1 hos), assign_of_notMem hos, List.cons_append]

theorem assign_cons_of_eq (h : c.name = o.name) (hos : o.name ∉ names os) :
    assign (c :: os) o = { c with values := o.values } :: os := by
  have hname : o.name ∈ names (c :: os) := List.mem_map.2 ⟨c, List.mem_cons_self, h⟩
  have hrest : os.map o.replaced = os := by
    apply map_eq_self
    intro c' hc'
    exact replaced_of_ne fun he => hos (List.mem_map.2 ⟨c', hc', he⟩)
  rw [assign_of_mem hname, List.map_cons, hrest, replaced, if_pos h]

theorem mem_names_assign {n : Text} : n ∈ names (assign os o) ↔ n ∈ names os ∨ n = o.name := by
  by_cases h : o.name ∈ names os
  · rw [assign_of_mem h, names_map_replaced]
    exact ⟨Or.inl, fun hn => hn.elim id fun he => he ▸ h⟩
  · rw [assign_of_notMem h]
    simp [names, or_comm, eq_comm]

theorem mem_names_foldl_assign (h : o ∈ os) : o.name ∈ names (os.foldl assign cs) := by
  induction os using List.reverseRecOn with
  | nil => contradiction
  | append_singleton os o' ih =>
    rw [List.foldl_append, List.foldl_cons, List.foldl_nil, mem_names_assign]
    rcases List.mem_append.1 h with h | h
    · exact Or.inl (ih h)
    · exact Or.inr (List.mem_singleton.1 h ▸ rfl)

theorem foldl_assign_of_mem (h : ∀ o ∈ os, o.name ∈ names cs) : os.foldl assign cs = cs.map (settled os) := by
  induction os generalizing cs with
  | nil => exact (List.map_id' cs).symm
  | cons o os ih =>
    obtain ⟨ho, hos⟩ := List.forall_mem_cons.1 h
    rw [List.foldl_cons, assign_of_mem ho, ih (fun o' ho' => (names_map_replaced o cs).symm ▸ hos o' ho'), List.map_map]
    rfl

theorem settled_append (os : List Outline) (o c : Outline) : settled (os ++ [o]) c = o.replaced (settled os c) :=
  List.foldl_append

theorem settled_eq (os : List Outline) (c : Outline) :
    (settled os c).name = c.name ∧ (settled os c).parameters = c.parameters := by
  induction os generalizing c with
  | nil => exact ⟨rfl, rfl⟩
  | cons o os ih =>
    obtain ⟨hname, hparameters⟩ := ih (o.replaced c)
    refine ⟨hname.trans (name_replaced o c), hparameters.trans ?_⟩
    rw [replaced]
    split <;> rfl

theorem replaced_settled (os : List Outline) (o c : Outline) (h : c.name = o.name) :
    o.replaced (settled os c) = { c with values := o.values } := by
  obtain ⟨hname, hparameters⟩ := settled_eq os c
  rw [replaced, if_pos (hname.trans h), hname, hparameters]

theorem settled_of_mem (h : c ∈ os.foldl assign cs) : settled os c = c := by
  induction os using List.reverseRecOn generalizing c with
  | nil => rfl
  | append_singleton os o ih =>
    rw [List.foldl_append, List.foldl_cons, List.foldl_nil] at h
    rw [settled_append]
    by_cases hknown : o.name ∈ names (os.foldl assign cs)
    · rw [assign_of_mem hknown] at h
      obtain ⟨c', hc', rfl⟩ := List.mem_map.1 h
      by_cases hname : c'.name = o.name
      · rw [replaced_settled os o _ ((name_replaced o c').trans hname), replaced, if_pos hname]
      · rw [replaced_of_ne hname, ih hc', replaced_of_ne hname]
    · rw [assign_of_notMem hknown] at h
      rcases List.mem_append.1 h with h | h
      · have hne : c.name ≠ o.name := fun he => hknown (he ▸ List.mem_map_of_mem h)
        rw [ih h, replaced_of_ne hne]
      · obtain rfl := List.mem_singleton.1 h
        exact replaced_settled os c c rfl

theorem foldl_assign_twice (os cs : List Outline) : os.foldl assign (os.foldl assign cs) = os.foldl assign cs := by
  rw [foldl_assign_of_mem fun o ho => mem_names_foldl_assign ho]
  exact map_eq_self fun c hc => settled_of_mem hc

end Outline

namespace MacroTable

theorem map_eq_of_current {t t' : MacroTable} (h : t.current = t'.current) :
    t.macros.map (fun m => (m.name, m.parameters, m.body)) =
      t'.macros.map (fun m => (m.name, m.parameters, m.body)) := by
  have hmap := congrArg (List.map fun o : Outline => (o.name, o.parameters, o.values.headD [])) h
  simp only [current, List.map_map, Function.comp_def, Macro.values_current] at hmap
  exact hmap

theorem current_registerIn (r : Registration) {ms : List Macro} (h : (ms.map (·.name)).Nodup) :
    (registerIn r ms).map Macro.current = Outline.assign (ms.map Macro.current) r.outline := by
  induction ms with
  | nil => rfl
  | cons m ms ih =>
    obtain ⟨hm, hms⟩ := List.nodup_cons.1 h
    rw [registerIn, List.map_cons]
    split
    · next hname =>
      have hnames : Outline.names (ms.map Macro.current) = ms.map (·.name) := List.map_map
      have hold : r.name ∉ Outline.names (ms.map Macro.current) := by
        rw [hnames, ← hname]
        exact hm
      rw [List.map_cons, Macro.current_extend]
      exact (Outline.assign_cons_of_eq (o := r.outline) hname hold).symm
    · next hname => rw [Outline.assign_cons_of_ne hname, List.map_cons, ih hms]

theorem current_define (t : MacroTable) (r : Registration) :
    (t.define r).current = Outline.assign t.current r.outline :=
  current_registerIn r t.nodup

theorem current_foldl_define (rs : List Registration) (t : MacroTable) :
    (rs.foldl define t).current = (rs.map Registration.outline).foldl Outline.assign t.current := by
  induction rs generalizing t with
  | nil => rfl
  | cons r rs ih => rw [List.foldl_cons, List.map_cons, List.foldl_cons, ih, current_define]

end MacroTable

end ScriptMacros
