/-!
# Stacks

The registers of the machine that grow and shrink at one end. A stack is the
list of its elements, the top first, together with their number, so that taking
a note of the current height and coming back to it later are cheap.

`popMany?` gives elements back in the order they were pushed, `truncate` comes
back to an earlier height, and `dropUntil` to an element with a property.
-/

namespace StackLisp

/-- A stack of known height. -/
structure Stack (α : Type) where
  /-- The elements, the top first. -/
  items : List α
  height : Nat
  height_eq : height = items.length

namespace Stack

variable {α : Type}

/-- The stack without elements. -/
def empty : Stack α := ⟨[], 0, rfl⟩

instance : Inhabited (Stack α) := ⟨empty⟩

/-- One more element on top. -/
def push (s : Stack α) (a : α) : Stack α :=
  ⟨a :: s.items, s.height + 1, by simp [s.height_eq]⟩

/-- The top. -/
def top? (s : Stack α) : Option α := s.items.head?

/-- The stack below the `n` topmost elements. -/
def drop (s : Stack α) (n : Nat) : Stack α :=
  ⟨s.items.drop n, s.height - n, by simp [s.height_eq]⟩

/-- The top and the stack below it. -/
def pop? : Stack α → Option (α × Stack α)
  | ⟨[], _, _⟩ => none
  | ⟨a :: items, height, h⟩ =>
    some (a, ⟨items, height - 1, by rw [h, List.length_cons, Nat.add_sub_cancel]⟩)

/-- The `n` topmost elements in the order they were pushed, and the stack below
    them; nothing if there are fewer. -/
def popMany? (s : Stack α) (n : Nat) : Option (List α × Stack α) :=
  if s.height < n then none else some ((s.items.take n).reverse, s.drop n)

/-- Several elements, the last of them on top. -/
def pushMany (s : Stack α) (as : List α) : Stack α := as.foldl push s

/-- Drops elements until at most `height` are left. -/
def truncate (s : Stack α) (height : Nat) : Stack α := s.drop (s.height - height)

/-- Drops elements until the top has a property. -/
def dropUntil (p : α → Bool) (s : Stack α) : Stack α := s.drop (s.items.findIdx p)

@[simp]
theorem items_empty : (empty : Stack α).items = [] := rfl

@[simp]
theorem items_push (s : Stack α) (a : α) : (s.push a).items = a :: s.items := rfl

@[simp]
theorem items_drop (s : Stack α) (n : Nat) : (s.drop n).items = s.items.drop n := rfl

@[simp]
theorem height_push (s : Stack α) (a : α) : (s.push a).height = s.height + 1 := rfl

/-- A stack is its elements. -/
@[ext]
theorem ext {s t : Stack α} (h : s.items = t.items) : s = t := by
  obtain ⟨items, height, hs⟩ := s
  obtain ⟨items', height', ht⟩ := t
  subst hs ht
  simp only at h
  subst h
  rfl

/-- The top is what is popped. -/
theorem top?_eq_pop? (s : Stack α) : s.top? = s.pop?.map Prod.fst := by
  obtain ⟨_ | ⟨a, items⟩, height, h⟩ := s <;> rfl

/-- Popping undoes pushing. -/
@[simp]
theorem pop?_push (s : Stack α) (a : α) : (s.push a).pop? = some (a, s) := by
  simp [pop?, push]

@[simp]
theorem items_pushMany (s : Stack α) (as : List α) :
    (s.pushMany as).items = as.reverse ++ s.items := by
  unfold pushMany
  induction as generalizing s with
  | nil => rfl
  | cons a as ih => simp [ih]

/-- The elements pushed last are popped in the order they were pushed. -/
@[simp]
theorem popMany?_pushMany (s : Stack α) (as : List α) :
    (s.pushMany as).popMany? as.length = some (as, s) := by
  have h : ¬(s.pushMany as).height < as.length := by simp [Stack.height_eq]
  simp only [popMany?, h, if_false, Option.some.injEq, Prod.mk.injEq]
  refine ⟨by simp, ?_⟩
  ext1
  simp

/-- Truncating to the height before some pushes undoes them. -/
@[simp]
theorem truncate_pushMany (s : Stack α) (as : List α) :
    (s.pushMany as).truncate s.height = s := by
  ext1
  simp [truncate, Stack.height_eq]

end Stack

end StackLisp
