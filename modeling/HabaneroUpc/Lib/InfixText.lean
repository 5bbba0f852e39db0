import Mathlib.Data.Int.Bitwise
import Mathlib.Data.Option.Basic

namespace HabaneroUpc.InfixText

/-- The operators of a language. An operator of a higher level binds tighter, and
those of one level are read from the left. The conditional is below all of them. -/
structure Operators (O V : Type*) where
  level : O → Nat
  apply : O → V → V → V
  choose : V → V → V → V

/-- An expression in the order in which it is evaluated. -/
inductive Expr (O α : Type*)
  | atom (a : α)
  | op (o : O) (l r : Expr O α)
  | cond (c t e : Expr O α)

inductive Token (O : Type*)
  | op (o : O)
  | question
  | colon

/-- An expression as it is written, without parentheses. -/
structure Text (O α : Type*) where
  first : α
  rest : List (Token O × α)

/-- What waits in front of the operand that a reader of a text has come to. -/
inductive Frame (O V : Type*)
  | left (x : V) (o : O)
  | question (c : V)
  | colon (c t : V)

structure Read (O V : Type*) where
  waiting : List (Frame O V)
  operand : V

universe u

variable {O V : Type u} {α β : Type*} {ops : Operators O V} {k : Nat} {w : List (Frame O V)}

/-- What is reduced in front of it. -/
def Token.level (ops : Operators O V) : Token O → Nat
  | op o => ops.level o + 1
  | question => 1
  | colon => 0

namespace Text

def paste (t : Text O α) (o : Token O) (u : Text O α) : Text O α := ⟨t.first, t.rest ++ (o, u.first) :: u.rest⟩

def map (f : α → β) (t : Text O α) : Text O β := ⟨f t.first, t.rest.map (Prod.map id f)⟩

def num (x : V) : Text O (Option V) := ⟨some x, []⟩

end Text

namespace Expr

def map (f : α → β) : Expr O α → Expr O β
  | atom a => atom (f a)
  | op o l r => op o (l.map f) (r.map f)
  | cond c t e => cond (c.map f) (t.map f) (e.map f)

def atoms : Expr O α → List α
  | atom a => [a]
  | op _ l r => l.atoms ++ r.atoms
  | cond c t e => c.atoms ++ t.atoms ++ e.atoms

def text : Expr O α → Text O α
  | atom a => ⟨a, []⟩
  | op o l r => l.text.paste (.op o) r.text
  | cond c t e => (c.text.paste .question t.text).paste .colon e.text

/-- No result is an operand without a value. -/
def value (ops : Operators O V) : Expr O (Option V) → Option V
  | atom x => x
  | op o l r => do
    let x ← l.value ops
    let y ← r.value ops
    return ops.apply o x y
  | cond c t e => do
    let x ← c.value ops
    let y ← t.value ops
    let z ← e.value ops
    return ops.choose x y z

/-- The expression needs no parentheses where only operators from level k - 1 on
need none, and the conditional for k = 0. -/
def Plain (ops : Operators O V) : Expr O α → Nat → Prop
  | atom _, _ => True
  | op o l r, k => k ≤ ops.level o + 1 ∧ l.Plain ops (ops.level o + 1) ∧ r.Plain ops (ops.level o + 2)
  | cond c t e, k => k = 0 ∧ c.Plain ops 1 ∧ t.Plain ops 0 ∧ e.Plain ops 0

end Expr

namespace Read

def reduce (ops : Operators O V) (k : Nat) : List (Frame O V) → V → Read O V
  | [], y => ⟨[], y⟩
  | .left x o :: w, y =>
    if k ≤ ops.level o + 1 then reduce ops k w (ops.apply o x y) else ⟨.left x o :: w, y⟩
  | .question c :: w, y => ⟨.question c :: w, y⟩
  | .colon c t :: w, y => if k = 0 then reduce ops k w (ops.choose c t y) else ⟨.colon c t :: w, y⟩

def reduced (ops : Operators O V) (k : Nat) (r : Read O V) : Read O V :=
  reduce ops k r.waiting r.operand

/-- No result is a colon without its question mark. -/
def push (r : Read O V) : Token O → Option (List (Frame O V))
  | .op o => some (.left r.operand o :: r.waiting)
  | .question => some (.question r.operand :: r.waiting)
  | .colon =>
    match r.waiting with
    | .question c :: w => some (.colon c r.operand :: w)
    | _ => none

def step (ops : Operators O V) (r : Read O V) (a : Token O × Option V) : Option (Read O V) := do
  let w ← (r.reduced ops (a.1.level ops)).push a.1
  let y ← a.2
  return ⟨w, y⟩

/-- No result is a question mark without its colon. -/
def result : Read O V → Option V
  | ⟨[], x⟩ => some x
  | _ => none

def Still (ops : Operators O V) (k : Nat) : List (Frame O V) → Prop
  | .left _ o :: _ => ops.level o + 1 < k
  | .colon _ _ :: _ => 0 < k
  | _ => True

theorem Still.mono {k' : Nat} (h : Still ops k w) (hk : k ≤ k') : Still ops k' w := by
  cases w with
  | nil => trivial
  | cons f w =>
      cases f with
      | left x o => exact Nat.lt_of_lt_of_le h hk
      | question c => trivial
      | colon c t => exact Nat.lt_of_lt_of_le h hk

theorem reduce_still (h : Still ops k w) (y : V) : reduce ops k w y = ⟨w, y⟩ := by
  cases w with
  | nil => rfl
  | cons f w =>
      cases f with
      | left x o => exact if_neg (Nat.not_le.mpr h)
      | question c => rfl
      | colon c t => exact if_neg (Nat.pos_iff_ne_zero.mp h)

end Read

namespace Text

def read (ops : Operators O V) (w : List (Frame O V)) (t : Text O (Option V)) : Option (Read O V) := do
  let x ← t.first
  t.rest.foldlM (Read.step ops) ⟨w, x⟩

def value (ops : Operators O V) (t : Text O (Option V)) : Option V :=
  ((t.read ops []).map (Read.reduced ops 0)).bind Read.result

def paren (ops : Operators O V) (t : Text O (Option V)) : Text O (Option V) := ⟨t.value ops, []⟩

theorem paren_eq_num {t : Text O (Option V)} {x : V} (h : t.value ops = some x) :
    t.paren ops = num x := by
  rw [paren, h, num]

/-- Only what is left after the reduction counts for the text behind an operator. -/
theorem read_paste {t : Text O (Option V)} {o : Token O} {x : Option V} {w' : List (Frame O V)}
    (h : (t.read ops w).map (Read.reduced ops (o.level ops)) = x.map fun x => ⟨w', x⟩)
    (u : Text O (Option V)) :
    (t.paste o u).read ops w =
      x.bind fun x => (Read.push ⟨w', x⟩ o).bind fun w => u.read ops w := by
  calc (t.paste o u).read ops w
      = (t.read ops w).bind fun r =>
          ((r.reduced ops (o.level ops)).push o).bind fun w => u.read ops w := by
        simp only [read, paste, List.foldlM_append, List.foldlM_cons, Read.step,
          Option.bind_eq_bind, Option.bind_assoc, Option.pure_def, Option.bind_some]
    _ = ((t.read ops w).map (Read.reduced ops (o.level ops))).bind fun r =>
          (r.push o).bind fun w => u.read ops w := by
        rw [Option.bind_map]
        rfl
    _ = x.bind fun x => (Read.push ⟨w', x⟩ o).bind fun w => u.read ops w := by
        rw [h, Option.bind_map]
        rfl

end Text

namespace Expr

theorem map_text (f : α → β) (e : Expr O α) : (e.map f).text = e.text.map f := by
  induction e with
  | atom a => rfl
  | op o l r ihl ihr => simp [map, text, ihl, ihr, Text.paste, Text.map]
  | cond c t e ihc iht ihe => simp [map, text, ihc, iht, ihe, Text.paste, Text.map]

theorem map_map {γ : Type*} (f : α → β) (g : β → γ) (e : Expr O α) :
    (e.map f).map g = e.map (g ∘ f) := by
  induction e with
  | atom a => rfl
  | op o l r ihl ihr => simp [map, ihl, ihr]
  | cond c t e ihc iht ihe => simp [map, ihc, iht, ihe]

theorem map_congr {f g : α → β} {e : Expr O α} (h : ∀ a ∈ e.atoms, f a = g a) : e.map f = e.map g := by
  induction e with
  | atom a => exact congrArg atom (h a List.mem_cons_self)
  | op o l r ihl ihr =>
      simp only [atoms, List.mem_append] at h
      rw [map, map, ihl fun a ha => h a (.inl ha), ihr fun a ha => h a (.inr ha)]
  | cond c t e ihc iht ihe =>
      simp only [atoms, List.mem_append] at h
      rw [map, map, ihc fun a ha => h a (.inl (.inl ha)), iht fun a ha => h a (.inl (.inr ha)),
        ihe fun a ha => h a (.inr ha)]

theorem plain_map (f : α → β) {e : Expr O α} (h : e.Plain ops k) : (e.map f).Plain ops k := by
  induction e generalizing k with
  | atom a => trivial
  | op o l r ihl ihr => exact ⟨h.1, ihl h.2.1, ihr h.2.2⟩
  | cond c t e ihc iht ihe => exact ⟨h.1, ihc h.2.1, iht h.2.2.1, ihe h.2.2.2⟩

theorem plain_mono {k' : Nat} {e : Expr O α} (h : e.Plain ops k) (hk : k' ≤ k) : e.Plain ops k' := by
  cases e with
  | atom a => trivial
  | op o l r => exact ⟨hk.trans h.1, h.2⟩
  | cond c t e =>
      obtain ⟨rfl, h⟩ := h
      exact ⟨Nat.le_zero.mp hk, h⟩

/-- Behind an expression that needs no parentheses here, what is looser than k finds
the value of the expression. -/
theorem read_plain {e : Expr O (Option V)} (h : e.Plain ops k) (hw : Read.Still ops (max k 1) w)
    {j : Nat} (hj : j ≤ k) :
    (e.text.read ops w).map (Read.reduced ops j) =
      (e.value ops).map fun x => Read.reduce ops j w x := by
  induction e generalizing k w j with
  | atom x => cases x <;> rfl
  | op o l r ihl ihr =>
      obtain ⟨hk, hl, hr⟩ := h
      have hleft : Read.Still ops (ops.level o + 1) w := hw.mono (by omega)
      have hright : ∀ x, (r.text.read ops (.left x o :: w)).map (Read.reduced ops j) =
          (r.value ops).map fun y => Read.reduce ops j w (ops.apply o x y) := by
        intro x
        have hstill : Read.Still ops (max (ops.level o + 2) 1) (.left x o :: w) := by
          change ops.level o + 1 < _
          omega
        rw [ihr hr hstill (by omega)]
        simp only [Read.reduce, if_pos (hj.trans hk)]
      have hread := ihl hl (by rwa [max_eq_left (by omega)]) (le_refl _)
      simp only [Read.reduce_still hleft] at hread
      rw [text, Text.read_paste hread]
      cases hx : l.value ops with
      | none => simp [value, hx]
      | some x =>
          rw [Option.bind_some, Read.push, Option.bind_some, hright]
          cases hy : r.value ops <;> simp [value, hx, hy]
  | cond c t e ihc iht ihe =>
      obtain ⟨rfl, hc, ht, he⟩ := h
      obtain rfl : j = 0 := Nat.le_zero.mp hj
      have hstill : Read.Still ops 1 w := hw
      have hquestion := ihc hc hw (le_refl _)
      simp only [Read.reduce_still hstill] at hquestion
      have hcolon : ∀ x, (t.text.read ops (.question x :: w)).map (Read.reduced ops 0) =
          (t.value ops).map fun y => ⟨.question x :: w, y⟩ :=
        fun x => iht (w := .question x :: w) ht trivial (le_refl _)
      have helse : ∀ x y, (e.text.read ops (.colon x y :: w)).map (Read.reduced ops 0) =
          (e.value ops).map fun z => Read.reduce ops 0 w (ops.choose x y z) :=
        fun x y => ihe (w := .colon x y :: w) he Nat.one_pos (le_refl _)
      have hread := Text.read_paste (o := .question) hquestion t.text
      rw [text]
      cases hx : c.value ops with
      | none =>
          rw [hx, Option.bind_none] at hread
          have hnone : (((c.text.paste .question t.text).read ops w).map (Read.reduced ops 0)) =
              (none : Option V).map fun x => ⟨w, x⟩ := by
            rw [hread]
            rfl
          rw [Text.read_paste (o := .colon) hnone]
          simp [value, hx]
      | some x =>
          rw [hx, Option.bind_some, Read.push, Option.bind_some] at hread
          have hmiddle := hcolon x
          rw [← hread] at hmiddle
          rw [Text.read_paste (o := .colon) hmiddle]
          cases hy : t.value ops with
          | none => simp [value, hx, hy]
          | some y =>
              rw [Option.bind_some, Read.push, Option.bind_some, helse]
              cases hz : e.value ops <;> simp [value, hx, hy, hz]

/-- An expression that needs no parentheses has the value of its text. -/
theorem value_text {e : Expr O (Option V)} (h : e.Plain ops 0) : e.text.value ops = e.value ops := by
  rw [Text.value, read_plain (w := []) h trivial (le_refl 0), Option.bind_map]
  exact Option.bind_fun_some (e.value ops)

end Expr

theorem Text.value_num_paste (x y : V) (o : O) :
    ((num x).paste (.op o) (num y)).value ops = some (ops.apply o x y) := by
  have hplain : (Expr.op o (.atom (some x)) (.atom (some y))).Plain ops 0 :=
    ⟨Nat.zero_le _, trivial, trivial⟩
  exact Expr.value_text hplain

end HabaneroUpc.InfixText

namespace HabaneroUpc.COperators

open InfixText

/-- The operators of C that have no side effect. -/
inductive Op
  | mul | div | mod | add | sub | shl | shr | lt | gt | le | ge | eq | ne
  | bitAnd | bitXor | bitOr | and | or
  deriving DecidableEq

namespace Op

def level : Op → Nat
  | mul | div | mod => 9
  | add | sub => 8
  | shl | shr => 7
  | lt | gt | le | ge => 6
  | eq | ne => 5
  | bitAnd => 4
  | bitXor => 3
  | bitOr => 2
  | and => 1
  | or => 0

variable (fits : Int → Bool) (width : Int)

def truth (p : Prop) [Decidable p] : Option Int := some (if p then 1 else 0)

def within (x : Int) : Option Int := if fits x then some x else none

/-- On a signed type with these values and as many bits. No result is undefined
behaviour. -/
def eval : Op → Int → Int → Option Int
  | mul, x, y => within fits (x * y)
  | div, x, y => if y = 0 then none else within fits (x.tdiv y)
  | mod, x, y => if y ≠ 0 ∧ fits (x.tdiv y) then some (x.tmod y) else none
  | add, x, y => within fits (x + y)
  | sub, x, y => within fits (x - y)
  | shl, x, y => if 0 ≤ x ∧ 0 ≤ y ∧ y < width then within fits (x * 2 ^ y.toNat) else none
  | shr, x, y => if 0 ≤ y ∧ y < width then some (x / 2 ^ y.toNat) else none
  | lt, x, y => truth (x < y)
  | gt, x, y => truth (x > y)
  | le, x, y => truth (x ≤ y)
  | ge, x, y => truth (x ≥ y)
  | eq, x, y => truth (x = y)
  | ne, x, y => truth (x ≠ y)
  | bitAnd, x, y => some (x.land y)
  | bitXor, x, y => some (x.xor y)
  | bitOr, x, y => some (x.lor y)
  | and, x, y => truth (x ≠ 0 ∧ y ≠ 0)
  | or, x, y => truth (x ≠ 0 ∨ y ≠ 0)

/-- && and || leave out their second operand when the first one decides. -/
def apply (o : Op) (x y : Option Int) : Option Int := do
  let x ← x
  if o = and ∧ x = 0 then some 0
  else if o = or ∧ x ≠ 0 then some 1
  else
    let y ← y
    o.eval fits width x y

end Op

def operators (fits : Int → Bool) (width : Int) : Operators Op (Option Int) where
  level := Op.level
  apply := Op.apply fits width
  choose c t e := c.bind fun c => if c ≠ 0 then t else e

end HabaneroUpc.COperators
