/-!
# Dictionaries

A dictionary keeps its entries in the order in which their keys were first entered.  Keys are told
apart by `==`; entering a value under a key that is there already replaces the value and keeps the
key as it was.
-/

namespace PklAnalysis

structure Dict (α β : Type) where
  entries : List (α × β)
  deriving Inhabited, DecidableEq

namespace Dict

variable {α β : Type} [BEq α]

def empty : Dict α β := ⟨[]⟩

/-- The entry of a key. -/
def entry? (d : Dict α β) (a : α) : Option (α × β) := d.entries.find? fun e => e.1 == a

/-- The value of a key. -/
def get? (d : Dict α β) (a : α) : Option β := (d.entry? a).map (·.2)

def contains (d : Dict α β) (a : α) : Bool := d.entries.any fun e => e.1 == a

/-- Entries with the value of the first one of a key replaced, or a new one at the end. -/
def put (a : α) (b : β) : List (α × β) → List (α × β)
  | [] => [(a, b)]
  | e :: es => if e.1 == a then (e.1, b) :: es else e :: put a b es

def insert (d : Dict α β) (a : α) (b : β) : Dict α β := ⟨put a b d.entries⟩

/-- A value entered unless the key has one. -/
def insertNew (d : Dict α β) (a : α) (b : β) : Dict α β :=
  if d.contains a then d else d.insert a b

def erase (d : Dict α β) (a : α) : Dict α β := ⟨d.entries.filter fun e => !(e.1 == a)⟩

def keys (d : Dict α β) : List α := d.entries.map (·.1)

def values (d : Dict α β) : List β := d.entries.map (·.2)

def size (d : Dict α β) : Nat := d.entries.length

def isEmpty (d : Dict α β) : Bool := d.entries.isEmpty

/-- A list of pairs entered one after the other. -/
def ofList (es : List (α × β)) : Dict α β := es.foldl (fun d e => d.insert e.1 e.2) empty

@[simp] theorem get?_empty (a : α) : (empty : Dict α β).get? a = none := rfl

section Equiv

variable [EquivBEq α]

/-- Equal keys have the same value. -/
theorem get?_congr (d : Dict α β) {a c : α} (h : (a == c) = true) : d.get? a = d.get? c := by
  have hkey (e : α × β) : (e.1 == a) = (e.1 == c) := BEq.congr_right h
  simp only [get?, entry?, hkey]

theorem find?_put (a c : α) (b : β) (es : List (α × β)) :
    ((put a b es).find? fun e => e.1 == c).map (·.2)
      = if a == c then some b else (es.find? fun e => e.1 == c).map (·.2) := by
  induction es with
  | nil => cases h : a == c <;> simp [put, h]
  | cons e es ih =>
    cases he : e.1 == a with
    | true =>
      have hkey : (e.1 == c) = (a == c) := BEq.congr_left he
      cases h : a == c <;> simp [put, he, hkey, h]
    | false =>
      cases hc : e.1 == c with
      | true =>
        have hac : (a == c) = false := by rw [BEq.comm, ← BEq.congr_left hc, he]
        simp [put, he, hc, hac]
      | false => simpa [put, he, hc] using ih

theorem get?_insert (d : Dict α β) (a c : α) (b : β) :
    (d.insert a b).get? c = if a == c then some b else d.get? c :=
  find?_put a c b d.entries

end Equiv

end Dict

end PklAnalysis
