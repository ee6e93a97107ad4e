namespace ReactiveForm

/-! Sets as lists in ascending order without repetitions. -/

def insertAscending {α : Type} (order : α → α → Ordering) (member : α) :
    List α → List α
  | [] => [member]
  | head :: tail =>
      match order member head with
      | .lt => member :: head :: tail
      | .eq => head :: tail
      | .gt => head :: insertAscending order member tail

def ascending {α : Type} (order : α → α → Ordering) : List α → List α
  | [] => []
  | member :: rest => insertAscending order member (ascending order rest)

example : ascending compare [3, 1, 2, 3, 1] = [1, 2, 3] := by decide

/-! Sorting by a key. Members with the same key stay in their order. -/

def insertByKey {α : Type} (key : α → Nat) (member : α) : List α → List α
  | [] => [member]
  | head :: tail =>
      if key member ≤ key head then member :: head :: tail
      else head :: insertByKey key member tail

def sortByKey {α : Type} (key : α → Nat) : List α → List α
  | [] => []
  | member :: rest => insertByKey key member (sortByKey key rest)

example : sortByKey (· / 10) [31, 12, 30, 11, 20] = [12, 11, 20, 31, 30] := by decide

end ReactiveForm
