import Mathlib.Data.List.Basic

/-!
# Bounded buffers

Reading and writing blocks of a buffer, where every access outside the buffer
is an error. The error value is the caller's.
-/

namespace Buffer

universe u v

variable {α : Type u} {ε : Type v} {e : ε} {buf data : List α} {pos n i : ℕ}

/-- The buffer with a block replaced. -/
def overwrite (buf : List α) (pos : ℕ) (data : List α) : List α :=
  buf.take pos ++ data ++ buf.drop (pos + data.length)

/-- Read a block. -/
def read (e : ε) (buf : List α) (pos n : ℕ) : Except ε (List α) :=
  if pos + n ≤ buf.length then .ok ((buf.drop pos).take n) else .error e

/-- Write a block. -/
def write (e : ε) (buf : List α) (pos : ℕ) (data : List α) : Except ε (List α) :=
  if pos + data.length ≤ buf.length then .ok (overwrite buf pos data) else .error e

/-- A block inside the buffer is read. -/
theorem read_ok (h : pos + n ≤ buf.length) : read e buf pos n = .ok ((buf.drop pos).take n) :=
  if_pos h

/-- Another one is not. -/
theorem read_error (h : buf.length < pos + n) : read e buf pos n = .error e :=
  if_neg (Nat.not_le.mpr h)

/-- A block that fits is written. -/
theorem write_ok (h : pos + data.length ≤ buf.length) :
    write e buf pos data = .ok (overwrite buf pos data) :=
  if_pos h

/-- Another one is not. -/
theorem write_error (h : buf.length < pos + data.length) : write e buf pos data = .error e :=
  if_neg (Nat.not_le.mpr h)

/-- The buffer keeps its length. -/
theorem length_overwrite (h : pos + data.length ≤ buf.length) :
    (overwrite buf pos data).length = buf.length := by
  simp only [overwrite, List.length_append, List.length_take, List.length_drop]
  omega

/-- New data behind a first part. -/
theorem overwrite_append (before rest data : List α) :
    overwrite (before ++ rest) before.length data = before ++ data ++ rest.drop data.length := by
  rw [overwrite, List.take_left' rfl, ← List.drop_drop, List.drop_left' rfl]

/-- New data at the start of a run of equal values. -/
theorem overwrite_replicate (before data : List α) (z : α) (k : ℕ) :
    overwrite (before ++ List.replicate k z) before.length data =
      before ++ data ++ List.replicate (k - data.length) z := by
  rw [overwrite_append, List.drop_replicate]

/-- Writing the value of the run changes nothing. -/
theorem overwrite_replicate_self (before : List α) (z : α) {k : ℕ} (h : 0 < k) :
    overwrite (before ++ List.replicate k z) before.length [z] = before ++ List.replicate k z := by
  obtain ⟨j, rfl⟩ : ∃ j, k = j + 1 := ⟨k - 1, by omega⟩
  rw [overwrite_replicate]
  simp [List.replicate_succ]

/-- Inside the block stand the new data. -/
theorem getElem?_overwrite_inside (buf : List α) (pos : ℕ) (data : List α) (h : pos ≤ buf.length)
    (hi : i < data.length) :
    (overwrite buf pos data)[pos + i]? = data[i]? := by
  have hlen : (buf.take pos).length = pos := List.length_take_of_le h
  rw [overwrite, List.append_assoc, List.getElem?_append_right (by omega), hlen,
    Nat.add_sub_cancel_left, List.getElem?_append_left hi]

/-- What was read lies inside. -/
theorem read_eq_ok {block : List α} (h : read e buf pos n = .ok block) :
    pos + n ≤ buf.length ∧ block = (buf.drop pos).take n := by
  unfold read at h
  split_ifs at h with hle
  exact ⟨hle, by cases h; rfl⟩

/-- What was written does so too. -/
theorem write_eq_ok {buf' : List α} (h : write e buf pos data = .ok buf') :
    pos + data.length ≤ buf.length ∧ buf' = overwrite buf pos data := by
  unfold write at h
  split_ifs at h with hle
  exact ⟨hle, by cases h; rfl⟩

end Buffer
