import Mathlib.Data.List.TakeDrop
import Mathlib.Tactic.Common

/-!
# A file in blocks

What a driver of a block device offers its users: a fixed number of bytes and a
cursor.  A read hands over the bytes from the cursor on, a write replaces them.
A write of at most a block that stays in one block may leave the cursor in the next
one, and at the start of the file it may spoil the rest of the first block.

`Steps.getElem?_eq` is what a user relies on: a byte of the file is the last one
written at its place.
-/

namespace At91Drivers.Store

variable {υ : Type}

/-- The bytes from `start` on are replaced by `data`. -/
def overwrite (start : Nat) (data contents : List υ) : List υ :=
  contents.take start ++ data ++ contents.drop (start + data.length)

section Overwrite

variable {start : Nat} {data contents : List υ}

theorem getElem?_overwrite (hfits : start + data.length ≤ contents.length) (a : Nat) :
    (overwrite start data contents)[a]? =
      if start ≤ a ∧ a < start + data.length then data[a - start]? else contents[a]? := by
  have hlength : (contents.take start).length = start := by
    simp only [List.length_take]
    omega
  unfold overwrite
  rw [List.append_assoc]
  by_cases hbefore : a < start
  · rw [List.getElem?_append_left (by omega), if_neg (by omega), List.getElem?_take_of_lt hbefore]
  · rw [List.getElem?_append_right (by omega), hlength]
    by_cases hwithin : a < start + data.length
    · rw [List.getElem?_append_left (by omega), if_pos (by omega)]
    · rw [List.getElem?_append_right (by omega), if_neg (by omega), List.getElem?_drop]
      congr 1
      omega

end Overwrite

structure BlockFile (υ : Type) where
  contents : List υ
  cursor : Nat
  inside : cursor ≤ contents.length

/-- What a step transfers, and at which place of the file. -/
inductive Label (υ : Type) where
  | seek (target : Nat)
  | read (start : Nat) (data : List υ)
  | write (start : Nat) (data : List υ)

namespace Label

/-- What the step stores at `a`. -/
def stored (a : Nat) : Label υ → Option υ
  | .seek _ => none
  | .read _ _ => none
  | .write start data => if start ≤ a then data[a - start]? else none

/-- The step does not spoil the byte at `a`: it is no write at the start of the file
that ends in the first block before `a`. -/
def Spares (size a : Nat) : Label υ → Prop
  | .seek _ => True
  | .read _ _ => True
  | .write start data => start = 0 → a < data.length ∨ size ≤ a

end Label

/-- The last byte that the steps stored at `a`, and `old` if they stored none. -/
def latest (labels : List (Label υ)) (a : Nat) (old : Option υ) : Option υ :=
  labels.foldl (fun value l => (l.stored a).or value) old

namespace BlockFile

/-- Where a write of `n` bytes at `start` may leave the cursor: behind the data when
it goes on in the next block, and else at the start of the next block or a block
further on. -/
def Leaves (size start n next : Nat) : Prop :=
  if size < start % size + n then next = start + n
  else next = start + size ∨ next = (start / size + 1) * size

/-- The steps of a file whose blocks have `size` bytes. -/
inductive Step (size : Nat) (f : BlockFile υ) : Label υ → BlockFile υ → Prop
  | seek {f' : BlockFile υ} (hcontents : f'.contents = f.contents) : Step size f (.seek f'.cursor) f'
  | read {f' : BlockFile υ} {n : Nat} (hcontents : f'.contents = f.contents)
      (hcursor : f'.cursor = f.cursor + n) :
      Step size f (.read f.cursor ((f.contents.drop f.cursor).take n)) f'
  | write {f' : BlockFile υ} {data : List υ}
      (hfits : f.cursor + data.length ≤ f.contents.length)
      (hcontents : f'.contents = overwrite f.cursor data f.contents)
      (hcursor : Leaves size f.cursor data.length f'.cursor) :
      Step size f (.write f.cursor data) f'
  /-- a write at the start of the file, with the rest of the block -/
  | spoil {f' : BlockFile υ} {data rest : List υ} (hstart : f.cursor = 0)
      (hblock : data.length + rest.length = size) (hfits : size ≤ f.contents.length)
      (hcontents : f'.contents = overwrite 0 (data ++ rest) f.contents)
      (hcursor : Leaves size 0 data.length f'.cursor) :
      Step size f (.write 0 data) f'

inductive Steps (size : Nat) : BlockFile υ → List (Label υ) → BlockFile υ → Prop
  | nil {f : BlockFile υ} : Steps size f [] f
  | cons {f f₁ f' : BlockFile υ} {l : Label υ} {labels : List (Label υ)}
      (hfirst : Step size f l f₁) (hrest : Steps size f₁ labels f') : Steps size f (l :: labels) f'

variable {size : Nat} {f f₁ f' : BlockFile υ} {labels later : List (Label υ)}

theorem Steps.append (h : Steps size f labels f₁) (h' : Steps size f₁ later f') :
    Steps size f (labels ++ later) f' := by
  induction h with
  | nil => exact h'
  | cons hfirst _ ih => exact .cons hfirst (ih h')

theorem Steps.split (h : Steps size f (labels ++ later) f') :
    ∃ f₁, Steps size f labels f₁ ∧ Steps size f₁ later f' := by
  induction labels generalizing f with
  | nil => exact ⟨f, .nil, h⟩
  | cons l labels ih =>
      cases h with
      | cons hfirst hrest =>
          obtain ⟨f₁, hlabels, hlater⟩ := ih hrest
          exact ⟨f₁, .cons hfirst hlabels, hlater⟩

/-! ## The last byte written -/

/-- A step leaves the byte that it stored, or the one that was there. -/
theorem Step.getElem?_eq {l : Label υ} {a : Nat} (h : Step size f l f₁)
    (hspares : l.Spares size a) : f₁.contents[a]? = (l.stored a).or f.contents[a]? := by
  cases h with
  | seek hcontents => rw [hcontents, Label.stored, Option.none_or]
  | read hcontents _ => rw [hcontents, Label.stored, Option.none_or]
  | @write _ data hfits hcontents _ =>
      rw [hcontents, getElem?_overwrite hfits, Label.stored]
      by_cases hin : f.cursor ≤ a ∧ a < f.cursor + data.length
      · rw [if_pos hin, if_pos hin.1, List.getElem?_eq_getElem (by omega), Option.some_or]
      · rw [if_neg hin]
        split
        · have hnone : data[a - f.cursor]? = none := List.getElem?_eq_none (by omega)
          rw [hnone, Option.none_or]
        · rw [Option.none_or]
  | @spoil _ data rest hstart hblock hfits hcontents _ =>
      rw [hcontents, getElem?_overwrite (by rw [List.length_append]; omega), Label.stored,
        if_pos (Nat.zero_le a), Nat.sub_zero, Nat.zero_add, List.length_append, hblock]
      by_cases hdata : a < data.length
      · rw [if_pos (by omega), List.getElem?_append_left hdata, List.getElem?_eq_getElem hdata,
          Option.some_or]
      · have hbehind : size ≤ a := (hspares rfl).resolve_left hdata
        have hnone : data[a]? = none := List.getElem?_eq_none (by omega)
        rw [if_neg (by omega), hnone, Option.none_or]

/-- A byte that no step spoils is the last one written at its place. -/
theorem Steps.getElem?_eq {a : Nat} (h : Steps size f labels f')
    (hspares : ∀ l ∈ labels, l.Spares size a) :
    f'.contents[a]? = latest labels a f.contents[a]? := by
  induction h with
  | nil => rfl
  | cons hfirst _ ih =>
      obtain ⟨hspare, hrest⟩ := List.forall_mem_cons.mp hspares
      rw [ih hrest, hfirst.getElem?_eq hspare]
      rfl

/-- So is each byte that a read hands over. -/
theorem Steps.read_latest {start i : Nat} {data : List υ}
    (h : Steps size f (labels ++ .read start data :: later) f') (hi : i < data.length)
    (hspares : ∀ l ∈ labels, l.Spares size (start + i)) :
    data[i]? = latest labels (start + i) f.contents[start + i]? := by
  obtain ⟨f₁, hlabels, hread⟩ := h.split
  rw [← hlabels.getElem?_eq hspares]
  cases hread with
  | cons hfirst _ =>
      cases hfirst with
      | @read _ n hcontents hcursor =>
          rw [List.length_take] at hi
          rw [List.getElem?_take_of_lt (by omega), List.getElem?_drop]

end BlockFile

end At91Drivers.Store
