import Mathlib.Data.List.Basic

/-! Self-delimiting serializers. A `Serial α` carries the proof that it reads back what it wrote whatever
bytes follow, so every combinator yields a serializer again and a record needs no proof of its own. -/

structure Serial (α : Type) where
  enc : α → List UInt8
  dec : List UInt8 → Option (α × List UInt8)
  dec_enc : ∀ a t, dec (enc a ++ t) = some (a, t)

namespace Serial

variable {α β : Type}

def byte : Serial UInt8 where
  enc b := [b]
  dec
    | [] => none
    | b :: t => some (b, t)
  dec_enc _ _ := rfl

/-- Numbers in unary, ended by a zero byte. -/
def encNat : Nat → List UInt8
  | 0 => [0]
  | n + 1 => 1 :: encNat n

def decNat : List UInt8 → Option (Nat × List UInt8)
  | [] => none
  | b :: t => if b = 0 then some (0, t) else (decNat t).map (fun r => (r.1 + 1, r.2))

def nat : Serial Nat where
  enc := encNat
  dec := decNat
  dec_enc n t := by
    induction n with
    | zero => rfl
    | succ n ih => simp [encNat, decNat, ih]

def prod (A : Serial α) (B : Serial β) : Serial (α × β) where
  enc p := A.enc p.1 ++ B.enc p.2
  dec l := (A.dec l).bind fun r => (B.dec r.2).map fun q => ((r.1, q.1), q.2)
  dec_enc p t := by
    rw [List.append_assoc, A.dec_enc, Option.bind_some, B.dec_enc]
    rfl

/-- A serializer for a type that embeds into one that has a serializer. -/
def map (A : Serial α) (f : β → α) (g : α → β) (h : ∀ b, g (f b) = b) : Serial β where
  enc b := A.enc (f b)
  dec l := (A.dec l).map fun r => (g r.1, r.2)
  dec_enc b t := by rw [A.dec_enc, Option.map_some, h]

def decList (A : Serial α) : Nat → List UInt8 → Option (List α × List UInt8)
  | 0, l => some ([], l)
  | n + 1, l => (A.dec l).bind fun r => (decList A n r.2).map fun q => (r.1 :: q.1, q.2)

theorem decList_flatMap (A : Serial α) (as : List α) (t : List UInt8) :
    decList A as.length (as.flatMap A.enc ++ t) = some (as, t) := by
  induction as with
  | nil => rfl
  | cons a as ih =>
    rw [List.flatMap_cons, List.append_assoc, List.length_cons, decList, A.dec_enc, Option.bind_some, ih]
    rfl

/-- The length first, then the entries. -/
def list (A : Serial α) : Serial (List α) where
  enc as := encNat as.length ++ as.flatMap A.enc
  dec l := (decNat l).bind fun r => decList A r.1 r.2
  dec_enc as t := by
    rw [List.append_assoc]
    have hlen : decNat (encNat as.length ++ (as.flatMap A.enc ++ t)) = some (as.length, as.flatMap A.enc ++ t) :=
      nat.dec_enc _ _
    rw [hlen, Option.bind_some, decList_flatMap]

def option (A : Serial α) : Serial (Option α) :=
  A.list.map Option.toList List.head? (fun b => by cases b <;> rfl)

def bool : Serial Bool :=
  nat.map Bool.toNat (fun n => n = 1) (fun b => by cases b <;> rfl)

def uint64 : Serial UInt64 := nat.map UInt64.toNat UInt64.ofNat (fun _ => UInt64.ofNat_toNat)

/-- The sign, then the absolute value. -/
def int : Serial Int :=
  (bool.prod nat).map (fun z => (decide (z < 0), z.natAbs)) (fun p => if p.1 then -(p.2 : Int) else p.2)
    (fun z => by
      by_cases hz : z < 0
      · simp only [hz, decide_true, if_true]
        omega
      · simp only [hz, decide_false, Bool.false_eq_true, if_false]
        omega)

def bytes : Serial (List UInt8) := byte.list

end Serial
