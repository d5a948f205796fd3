import Mathlib.Data.List.Basic
import Mathlib.Data.List.Infix

/-!
# Streams of frames

Frames begin with a start symbol that does not occur inside them. A reader that
stops anywhere leaves the rest of one frame and whole frames, so a read that
begins with the start symbol begins with a whole frame.
-/

namespace FrameStream

universe u v

variable {α : Type u} {β : Type v} {start a : α} {frame : β → List α} {items more : List β}
  {read stream : List α}

/-- A beginning of two lists ends in the first or goes on in the second. -/
theorem cases_of_prefix_append {x y : List α} (h : read <+: x ++ y) :
    read <+: x ∨ ∃ rest, read = x ++ rest ∧ rest <+: y := by
  obtain hshort | ⟨rest, rfl⟩ := List.prefix_or_prefix_of_prefix h (List.prefix_append x y)
  · exact Or.inl hshort
  · exact Or.inr ⟨rest, rfl, (List.prefix_append_right_inj x).mp h⟩

/-- Every frame begins with the start symbol and has it nowhere else. -/
def Framed (start : α) (frame : β → List α) : Prop :=
  ∀ b, ∃ rest, frame b = start :: rest ∧ start ∉ rest

/-- The rest of a frame that was cut, and whole frames. -/
def Unread (start : α) (frame : β → List α) (items : List β) (stream : List α) : Prop :=
  ∃ cut, start ∉ cut ∧ stream = cut ++ items.flatMap frame

theorem unread_nil : Unread start frame [] [] := ⟨[], List.not_mem_nil, rfl⟩

/-- Further frames come behind. -/
theorem Unread.append (h : Unread start frame items stream) (more : List β) :
    Unread start frame (items ++ more) (stream ++ more.flatMap frame) := by
  obtain ⟨cut, hcut, rfl⟩ := h
  exact ⟨cut, hcut, by rw [List.flatMap_append, List.append_assoc]⟩

/-- One symbol is read. -/
theorem Unread.of_cons (hframe : Framed start frame) (h : Unread start frame items (a :: stream)) :
    ∃ items', items' <:+ items ∧ Unread start frame items' stream := by
  obtain ⟨cut, hcut, hstream⟩ := h
  cases cut with
  | cons c cut =>
    exact ⟨items, List.suffix_rfl, cut, fun hmem => hcut (List.mem_cons_of_mem c hmem),
      (List.cons.inj hstream).2⟩
  | nil =>
    cases items with
    | nil => cases hstream
    | cons b rest =>
      obtain ⟨tail, hb, htail⟩ := hframe b
      rw [List.nil_append, List.flatMap_cons, hb, List.cons_append] at hstream
      exact ⟨rest, List.suffix_cons b rest, tail, htail, (List.cons.inj hstream).2⟩

/-- A reader stops anywhere. -/
theorem Unread.of_append (hframe : Framed start frame) (h : Unread start frame items (read ++ stream)) :
    ∃ items', items' <:+ items ∧ Unread start frame items' stream := by
  induction read generalizing items with
  | nil => exact ⟨items, List.suffix_rfl, h⟩
  | cons a read ih =>
    obtain ⟨items', hitems, hrest⟩ := Unread.of_cons hframe h
    obtain ⟨items'', hitems', hunread⟩ := ih hrest
    exact ⟨items'', hitems'.trans hitems, hunread⟩

/-- Nothing is cut where the start symbol stands. -/
theorem Unread.of_start (h : Unread start frame items (start :: stream)) :
    ∃ b rest, items = b :: rest ∧ start :: stream = frame b ++ rest.flatMap frame := by
  obtain ⟨cut, hcut, hstream⟩ := h
  cases cut with
  | cons c cut =>
    have hstart : start = c := (List.cons.inj hstream).1
    exact absurd (hstart ▸ List.mem_cons_self) hcut
  | nil =>
    cases items with
    | nil => cases hstream
    | cons b rest => exact ⟨b, rest, rfl, hstream⟩

end FrameStream
