import Toplevel.Text.Basic

/-!
# History

The commands of an interaction, and a cursor that walks over them. The cursor counts back from the
newest command and stops at both ends; recording a command takes it away.
-/

namespace Toplevel

/-- The recorded commands, oldest first; no command repeats the one before it. -/
structure History where
  entries : List Text
  cursor : Option Nat
  cursor_lt : ∀ i, cursor = some i → i < entries.length

namespace History

def empty : History := ⟨[], none, by simp⟩

/-- Whether a command differs from the newest one. -/
def isNew (h : History) (command : Text) : Bool := h.entries.getLast? ≠ some command

/-- Appends a command that differs from the newest one; the browsing ends in any case. -/
def record (h : History) (command : Text) : History where
  entries := if h.isNew command then h.entries ++ [command] else h.entries
  cursor := none
  cursor_lt := by simp

def selected (h : History) : Option Text :=
  match h.cursor with
  | none => none
  | some i => h.entries[h.entries.length - i - 1]?

/-- Puts the cursor on a command, or on the oldest one if there are not so many. -/
def select (h : History) (i : Nat) : History where
  entries := h.entries
  cursor := if h.entries = [] then none else some (min i (h.entries.length - 1))
  cursor_lt := by
    intro j hj
    split at hj
    · simp at hj
    · next hne =>
      have := List.length_pos_iff.2 hne
      simp only [Option.some.injEq] at hj
      omega

def older (h : History) : History :=
  match h.cursor with
  | none => h.select 0
  | some i => h.select (i + 1)

def newer (h : History) : History :=
  match h.cursor with
  | none => h.select 0
  | some i => h.select (i - 1)

end History

end Toplevel
