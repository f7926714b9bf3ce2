import ScriptMacros.CodePoint

namespace ScriptMacros

/-- A text is the list of its code points, so lengths, columns and cuts count code points. -/
abbrev Text := List CodePoint

namespace Text

section

variable {α : Type} [DecidableEq α]

@[specialize] def after? : List α → List α → Option (List α)
  | [], t => some t
  | _ :: _, [] => none
  | a :: p, c :: t => if a = c then after? p t else none

theorem after?_eq_some {p t r : List α} : after? p t = some r ↔ t = p ++ r := by
  induction p generalizing t with
  | nil => simp [after?, eq_comm]
  | cons a p ih =>
    cases t with
    | nil => simp [after?]
    | cons c t =>
      by_cases h : a = c
      · simp [after?, h, ih]
      · simp [after?, h, Ne.symm h]

theorem after?_eq_none {p t : List α} : after? p t = none ↔ ¬p.isPrefixOf t := by
  rw [Option.eq_none_iff_forall_ne_some, List.isPrefixOf_iff_prefix]
  exact ⟨fun h ⟨r, hr⟩ => h r (after?_eq_some.2 hr.symm), fun h r hr => h ⟨r, (after?_eq_some.1 hr).symm⟩⟩

@[specialize] def squeeze (s : α) : List α → List α
  | [] => []
  | c :: t => if c = s ∧ t.head? = some s then squeeze s t else c :: squeeze s t

end

def offsetFrom? (p : Text) : (n : Nat) → Text → Option Nat
  | n, [] => if p.isPrefixOf [] then some n else none
  | n, c :: t => if p.isPrefixOf (c :: t) then some n else offsetFrom? p (n + 1) t

def offset? (p t : Text) : Option Nat := offsetFrom? p 0 t

theorem offsetFrom?_eq (p : Text) (n : Nat) (t : Text) : offsetFrom? p n t = (offset? p t).map (n + ·) := by
  rw [offset?]
  induction t generalizing n with
  | nil => by_cases h : p.isPrefixOf [] <;> simp [offsetFrom?, h]
  | cons c t ih =>
    by_cases h : p.isPrefixOf (c :: t)
    · simp [offsetFrom?, h]
    · simp [offsetFrom?, h, ih (n + 1), ih 1, Function.comp_def, Nat.add_assoc]

theorem offset?_cons (p : Text) (c : CodePoint) (t : Text) :
    offset? p (c :: t) = if p.isPrefixOf (c :: t) then some 0 else (offset? p t).map (1 + ·) := by
  rw [offset?, offsetFrom?, offsetFrom?_eq]

def spliceFrom (passed : Text) : (n : Nat) → Text → (r : Text) → Text
  | n + 1, c :: t, r => spliceFrom (c :: passed) n t r
  | _, _, r => passed.reverseAux r

def splice (n : Nat) (t r : Text) : Text := spliceFrom [] n t r

theorem spliceFrom_eq (passed : Text) (n : Nat) (t r : Text) :
    spliceFrom passed n t r = passed.reverse ++ (t.take n ++ r) := by
  induction t generalizing passed n with
  | nil => cases n <;> simp [spliceFrom, List.reverseAux_eq]
  | cons c t ih => cases n <;> simp [spliceFrom, List.reverseAux_eq, ih]

theorem splice_eq (n : Nat) (t r : Text) : splice n t r = t.take n ++ r := by
  simp [splice, spliceFrom_eq]

def lines (t : Text) : List Text := t.splitOn (.char '\n')

def ofLines (ls : List Text) : Text := List.intercalate ['\n'] ls

def cutAt? (s : CodePoint) : Text → Option (Text × Text)
  | [] => none
  | c :: t => if c = s then some ([], t) else (cutAt? s t).map fun (u, v) => (c :: u, v)

def ofNat (n : Nat) : Text := (Nat.toDigits 10 n).map CodePoint.char

def ofInt : Int → Text
  | .ofNat n => ofNat n
  | .negSucc n => .char '-' :: ofNat (n + 1)

def le (a b : Text) : Bool := !(b.lex a fun c d => c.toNat < d.toNat)

end Text

end ScriptMacros
