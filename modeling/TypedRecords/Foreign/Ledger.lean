/-!
# The ledger of owned results

An owned result has one of five shapes and has to be given back once. The ledger counts, for each
shape, the results handed out and not yet given back.
-/

namespace TypedRecords.Foreign

inductive Shape
  | string | keys | bits | records | pair
deriving DecidableEq, Repr

structure Ledger where
  strings : Int
  keys : Int
  bits : Int
  records : Int
  pairs : Int
deriving DecidableEq, Repr

namespace Ledger

def empty : Ledger := ⟨0, 0, 0, 0, 0⟩

def count (l : Ledger) : Shape → Int
  | .string => l.strings
  | .keys => l.keys
  | .bits => l.bits
  | .records => l.records
  | .pair => l.pairs

def total (l : Ledger) : Int := l.strings + l.keys + l.bits + l.records + l.pairs

def move (l : Ledger) (step : Int) : Shape → Ledger
  | .string => { l with strings := l.strings + step }
  | .keys => { l with keys := l.keys + step }
  | .bits => { l with bits := l.bits + step }
  | .records => { l with records := l.records + step }
  | .pair => { l with pairs := l.pairs + step }

def acquire (l : Ledger) (s : Shape) : Ledger := l.move 1 s

def release (l : Ledger) (s : Shape) : Ledger := l.move (-1) s

@[simp] theorem count_empty (s : Shape) : empty.count s = 0 := by cases s <;> rfl

theorem count_move (l : Ledger) (n : Int) (s t : Shape) :
    (l.move n s).count t = l.count t + if s = t then n else 0 := by
  cases s <;> cases t <;> simp [move, count]

end Ledger
end TypedRecords.Foreign
