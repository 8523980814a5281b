import Mathlib.Data.List.Basic
import Toplevel.Code.Basic

/-!
# Names in compiled code

A global is written with the number of its definition, and no two globals are written alike
(`Global.text_injective`), although names may hold digits and underscores themselves: the first
underscore ends the number. Nor is a global written like a local name or like one of the names that
the host provides.
-/

namespace Toplevel

theorem CodePoint.ofChar_injective : Function.Injective CodePoint.ofChar := by
  intro c d h
  have hval : c.toNat = d.toNat := congrArg CodePoint.val h
  exact Char.ext (UInt32.toNat_inj.1 hval)

namespace Text

theorem ofChars_injective : Function.Injective ofChars :=
  List.map_injective_iff.2 CodePoint.ofChar_injective

theorem ofNat_injective : Function.Injective ofNat := by
  intro m n h
  have hdigits : Nat.toDigits 10 m = Nat.toDigits 10 n := ofChars_injective h
  rw [← Nat.ofDigitChars_ten_toDigits (n := m), hdigits, Nat.ofDigitChars_ten_toDigits]

theorem underscore_notMem_ofNat (n : Nat) : CodePoint.ofChar '_' ∉ ofNat n := by
  intro h
  obtain ⟨c, hc, he⟩ := List.mem_map.1 h
  rw [CodePoint.ofChar_injective he] at hc
  exact Nat.underscore_not_in_toDigits hc

theorem cut_append {sep : CodePoint} {s : Text} (h : sep ∉ s) (t : Text) :
    cut sep (s ++ sep :: t) = (s, some t) := by
  induction s with
  | nil => simp [cut]
  | cons c s ih =>
    simp only [List.mem_cons, not_or] at h
    simp [cut, Ne.symm h.1, ih h.2]

end Text

theorem Global.text_eq (g : Global) :
    g.text = CodePoint.ofChar 'g' :: (Text.ofNat g.index ++ CodePoint.ofChar '_' :: g.name) := by
  simp [Global.text, Text.concat, Text.ofString, Text.ofChars]

theorem localText_eq (x : Text) :
    localText x = CodePoint.ofChar 'v' :: CodePoint.ofChar '_' :: x := by
  simp [localText, Text.concat, Text.ofString, Text.ofChars]

theorem Global.text_injective : Function.Injective Global.text := by
  intro g g' h
  rw [text_eq, text_eq, List.cons.injEq] at h
  have hcut := congrArg (Text.cut (CodePoint.ofChar '_')) h.2
  rw [Text.cut_append (Text.underscore_notMem_ofNat _),
    Text.cut_append (Text.underscore_notMem_ofNat _)] at hcut
  simp only [Prod.mk.injEq, Option.some.injEq] at hcut
  have hindex := Text.ofNat_injective hcut.1
  cases g
  cases g'
  simp only at hindex hcut
  rw [hindex, hcut.2]

theorem Global.text_ne_localText (g : Global) (x : Text) : g.text ≠ localText x := by
  rw [text_eq, localText_eq]
  intro h
  exact absurd (congrArg CodePoint.val (List.cons.inj h).1) (by decide)

/-- The names that the host provides for compiled code. -/
def runtimeNames : List Text :=
  ["_define", "_rt", "_inf", "_nan", "Tagged", "Ref", "Record", "__builtins__"]

theorem Global.text_notMem_runtimeNames (g : Global) : g.text ∉ runtimeNames := by
  intro h
  have hhead : ∀ t ∈ runtimeNames, t.head? ≠ some (CodePoint.ofChar 'g') := by decide
  exact hhead _ h (by rw [text_eq]; rfl)

theorem localText_notMem_runtimeNames (x : Text) : localText x ∉ runtimeNames := by
  intro h
  have hhead : ∀ t ∈ runtimeNames, t.head? ≠ some (CodePoint.ofChar 'v') := by decide
  exact hhead _ h (by rw [localText_eq]; rfl)

end Toplevel
