import RstPress.Text.Blank

/-!
Accesses that can fail. An index has to be in range, a slice as well and its ends in order, a text is cut
between two characters, and a difference is not negative. Each access gives nothing if it is not allowed.
An index into a list stands for the rest of the list from there on, and what the accesses give at an index
is told by that rest.
-/

namespace RstPress.Cursor
variable {α : Type}

/-- The items from one index up to another. -/
def slice? (start stop : Nat) (items : List α) : Option (List α) :=
  if start ≤ stop ∧ stop ≤ items.length then some ((items.drop start).take (stop - start)) else none

/-- The items from an index on. -/
def suffix? (start : Nat) (items : List α) : Option (List α) := slice? start items.length items

def difference? (a b : Nat) : Option Nat := if b ≤ a then some (a - b) else none

/-- The item in front of an index, if there is one. -/
def before? (items : List α) : Nat → Option (Option α)
  | 0 => some none
  | index + 1 => items[index]?.map some

/-- The item in front of an index at which there must be one. -/
def previous? (items : List α) (index : Nat) : Option α := (difference? index 1).bind (items[·]?)

/-- The size of a text in bytes. -/
def bytes : List Char → Nat
  | [] => 0
  | c :: text => c.utf8Size + bytes text

/-- The characters that make up so many bytes, and those behind them. -/
def cut? (count : Nat) : List Char → Option (List Char × List Char)
  | [] => if count = 0 then some ([], []) else none
  | c :: text =>
    if count = 0 then some ([], c :: text)
    else if c.utf8Size ≤ count then
      (cut? (count - c.utf8Size) text).map fun (front, back) => (c :: front, back)
    else none

/-- Repeats a pass from an index on until it ends the loop. A pass that goes on must advance. -/
def loop? {σ : Type} (length : Nat) (pass : σ → Nat → Option (Option (σ × Nat))) (state : σ) (index : Nat) :
    Option (σ × Nat) :=
  (pass state index).bind fun
    | none => some (state, index)
    | some (later, next) => if _ : index < next ∧ index < length then loop? length pass later next else none
termination_by length - index

theorem loop?_of_ends {σ : Type} {length index : Nat} {pass : σ → Nat → Option (Option (σ × Nat))} {state : σ}
    (ends : pass state index = some none) : loop? length pass state index = some (state, index) := by
  rw [loop?, ends]
  rfl

theorem loop?_of_advances {σ : Type} {length index next : Nat} {pass : σ → Nat → Option (Option (σ × Nat))}
    {state later : σ} (advances : pass state index = some (some (later, next))) (forward : index < next)
    (inside : index < length) : loop? length pass state index = loop? length pass later next := by
  rw [loop?, advances, Option.bind_some]
  exact dif_pos ⟨forward, inside⟩

/-- What a pass does with the item at its index. Behind the last item the loop ends. -/
def visit? {σ : Type} (items : List α) (index : Nat) (act : α → Option (Option (σ × Nat))) :
    Option (Option (σ × Nat)) :=
  if index < items.length then items[index]?.bind act else some none

/-- The list goes on with the given rest from the index on. -/
def IsAt (items : List α) (index : Nat) (rest : List α) : Prop :=
  ∃ front, items = front ++ rest ∧ index = front.length

theorem isAt_zero (items : List α) : IsAt items 0 items := ⟨[], rfl, rfl⟩

theorem isAt_drop {items : List α} {index : Nat} (inside : index ≤ items.length) :
    IsAt items index (items.drop index) :=
  ⟨items.take index, (List.take_append_drop index items).symm, (List.length_take_of_le inside).symm⟩

/-- At the index of an item the list goes on with the item. -/
theorem isAt_of_getElem? {items : List α} {index : Nat} {item : α} (found : items[index]? = some item) :
    IsAt items index (item :: items.drop (index + 1)) := by
  obtain ⟨inside, rfl⟩ := List.getElem?_eq_some_iff.mp found
  rw [← List.drop_eq_getElem_cons inside]
  exact isAt_drop (Nat.le_of_lt inside)

theorem exists_isAt {items : List α} {index : Nat} (inside : index < items.length) :
    ∃ item rest, IsAt items index (item :: rest) :=
  ⟨_, _, isAt_of_getElem? (List.getElem?_eq_getElem inside)⟩

theorem difference?_add (a b : Nat) : difference? (a + b) b = some a := by
  rw [difference?, if_pos (Nat.le_add_left b a), Nat.add_sub_cancel]

theorem difference?_of_le {a b : Nat} (le : b ≤ a) : difference? a b = some (a - b) := if_pos le

theorem bytes_append (front back : List Char) : bytes (front ++ back) = bytes front + bytes back := by
  induction front with
  | nil => exact (Nat.zero_add _).symm
  | cons c front ih => rw [List.cons_append, bytes, ih, bytes, Nat.add_assoc]

/-- A text can be cut behind each of its characters. -/
theorem cut?_append (front back : List Char) : cut? (bytes front) (front ++ back) = some (front, back) := by
  induction front with
  | nil => cases back <;> exact if_pos rfl
  | cons c front ih =>
    have size : bytes (c :: front) = c.utf8Size + bytes front := rfl
    have wide := c.utf8Size_pos
    rw [size, List.cons_append, cut?, if_neg (by omega), if_pos (Nat.le_add_right _ _), Nat.add_sub_cancel_left,
      ih]
    rfl

namespace IsAt
variable {items rest : List α} {index : Nat}

theorem length_eq (here : IsAt items index rest) : index + rest.length = items.length := by
  obtain ⟨front, rfl, rfl⟩ := here
  rw [List.length_append]

theorem getElem? (here : IsAt items index rest) (more : Nat) : items[index + more]? = rest[more]? := by
  obtain ⟨front, rfl, rfl⟩ := here
  rw [List.getElem?_append_right (Nat.le_add_right _ _), Nat.add_sub_cancel_left]

theorem head? (here : IsAt items index rest) : items[index]? = rest.head? := by
  rw [List.head?_eq_getElem?]
  exact here.getElem? 0

theorem drop_eq (here : IsAt items index rest) : items.drop index = rest := by
  obtain ⟨front, rfl, rfl⟩ := here
  exact List.drop_left

theorem lt_iff (here : IsAt items index rest) : index < items.length ↔ rest ≠ [] := by
  rw [← here.length_eq, ne_eq, ← List.length_eq_zero_iff]
  omega

theorem add {mid : List α} (here : IsAt items index (mid ++ rest)) :
    IsAt items (index + mid.length) rest := by
  obtain ⟨front, rfl, rfl⟩ := here
  exact ⟨front ++ mid, (List.append_assoc ..).symm, (List.length_append ..).symm⟩

theorem succ {item : α} (here : IsAt items index (item :: rest)) : IsAt items (index + 1) rest := by
  have front : IsAt items index ([item] ++ rest) := here
  exact front.add

theorem slice? {mid : List α} (here : IsAt items index (mid ++ rest)) :
    Cursor.slice? index (index + mid.length) items = some mid := by
  have length := here.length_eq
  rw [List.length_append] at length
  rw [Cursor.slice?, if_pos ⟨Nat.le_add_right _ _, by omega⟩, here.drop_eq, Nat.add_sub_cancel_left,
    List.take_left]

/-- A slice goes from one place to another. -/
theorem slice?_to {mid : List α} {stop : Nat} (here : IsAt items index (mid ++ rest))
    (there : IsAt items stop rest) : Cursor.slice? index stop items = some mid := by
  have same : stop = index + mid.length := by
    have first := here.add.length_eq
    have second := there.length_eq
    omega
  rw [same]
  exact here.slice?

/-- In front of a place behind some items stands the last one of them. -/
theorem previous?_eq {mid : List α} {stop : Nat} (here : IsAt items index (mid ++ rest))
    (there : IsAt items stop rest) (filled : mid ≠ []) : previous? items stop = mid.getLast? := by
  obtain ⟨most, last, rfl⟩ := (List.eq_nil_or_concat mid).resolve_left filled
  rw [List.concat_eq_append, List.append_assoc, List.singleton_append] at here
  have first := here.add
  have next : stop = index + most.length + 1 := by
    have after := first.succ.length_eq
    have second := there.length_eq
    omega
  rw [previous?, next, difference?_add, Option.bind_some, first.head?, List.concat_eq_append, List.getLast?_concat]
  rfl

/-- From one place to a later one there are some items. -/
theorem exists_between {later : Nat} {kept : List α} (here : IsAt items index rest)
    (there : IsAt items later kept) (le : index ≤ later) :
    ∃ mid, rest = mid ++ kept ∧ later = index + mid.length := by
  have cut : rest.drop (later - index) = kept := by
    rw [← here.drop_eq, List.drop_drop, Nat.add_sub_cancel' le, there.drop_eq]
  have first := here.length_eq
  have second := there.length_eq
  refine ⟨rest.take (later - index), ?_, ?_⟩
  · rw [← cut, List.take_append_drop]
  · rw [List.length_take]
    omega

theorem suffix? (here : IsAt items index rest) : Cursor.suffix? index items = some rest := by
  have whole : IsAt items index (rest ++ []) := by rwa [List.append_nil]
  rw [Cursor.suffix?, ← here.length_eq]
  exact whole.slice?

theorem visit? {σ : Type} {item : α} (here : IsAt items index (item :: rest))
    (act : α → Option (Option (σ × Nat))) : Cursor.visit? items index act = act item := by
  rw [Cursor.visit?, if_pos (here.lt_iff.mpr (List.cons_ne_nil _ _)), here.head?]
  rfl

/-- A shorter rest begins at a later index. -/
theorem lt (here : IsAt items index rest) {later : Nat} {kept : List α} (there : IsAt items later kept)
    (shorter : kept.length < rest.length) : index < later := by
  have first := here.length_eq
  have second := there.length_eq
  omega

theorem le (here : IsAt items index rest) : index ≤ items.length := by
  have length := here.length_eq
  omega

end IsAt

theorem visit?_of_le {σ : Type} {items : List α} {index : Nat} (beyond : items.length ≤ index)
    (act : α → Option (Option (σ × Nat))) : visit? items index act = some none :=
  if_neg (Nat.not_lt.mpr beyond)

/-- The item in front of a rest is the last one of what is in front of it. -/
theorem before?_eq (front rest : List α) : before? (front ++ rest) front.length = some front.getLast? := by
  rcases List.eq_nil_or_concat front with rfl | ⟨most, last, rfl⟩
  · rfl
  · rw [List.concat_eq_append, List.length_append, List.length_singleton, before?, List.append_assoc,
      List.getElem?_append_right (Nat.le_refl _), Nat.sub_self, List.getLast?_concat]
    rfl

end RstPress.Cursor
