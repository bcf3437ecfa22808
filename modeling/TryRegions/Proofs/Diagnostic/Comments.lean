import TryRegions.Diagnostic.Report
import Mathlib.Data.List.Forall2

/-! Diagnostics as comments in code. Each comment starts and ends as it should and has no line feed.
It stays on one line and ends where it should iff none of the texts of the diagnostic has a carriage
return or the end of a comment in it: these are written as they are. -/

namespace TryRegions

namespace Text

variable {l l' : List Char}

/-- The end of a comment occurs among the characters. -/
def Closes (l : List Char) : Prop := "*/".toList <:+: l

/-- The line starts and ends as a comment does, and no line feed breaks it. -/
structure Framed (line : String) : Prop where
  opened : "/* ".toList <+: line.toList
  closed : " */".toList <:+ line.toList
  unbroken : '\n' ∉ line.toList

/-- The end of a comment occurs as the last two characters only. -/
def ClosedOnce (line : String) : Prop :=
  ∀ front rest, line.toList = front ++ '*' :: '/' :: rest → rest = []

theorem closes_cons {c : Char} : Closes (c :: l) ↔ c = '*' ∧ l.head? = some '/' ∨ Closes l := by
  rw [Closes, List.infix_cons_iff]
  refine or_congr_left ?_
  cases l with
  | nil => simp [List.cons_prefix_cons]
  | cons d l => simp [List.cons_prefix_cons, eq_comm]

theorem not_closes_nil : ¬Closes [] := by simp [Closes]

/-- A character that is no part of the end of a comment divides the text for it. -/
theorem closes_append_cons {c : Char} (hstar : c ≠ '*') (hslash : c ≠ '/') :
    Closes (l ++ c :: l') ↔ Closes l ∨ Closes l' := by
  induction l with
  | nil => simp [closes_cons, not_closes_nil, hstar]
  | cons x l ih =>
    have hhead : (l ++ c :: l').head? = some '/' ↔ l.head? = some '/' := by
      cases l with
      | nil => simp [hslash]
      | cons y l => rfl
    rw [List.cons_append, closes_cons, closes_cons, ih, hhead, or_assoc]

/-- A change of single characters that leaves alone what ends a comment, and makes none of it. -/
theorem closes_map {f : Char → Char} (hstar : ∀ c, f c = '*' ↔ c = '*')
    (hslash : ∀ c, f c = '/' ↔ c = '/') : Closes (l.map f) ↔ Closes l := by
  induction l with
  | nil => rfl
  | cons x l ih =>
    have hhead : (l.map f).head? = some '/' ↔ l.head? = some '/' := by
      cases l with
      | nil => rfl
      | cons y l => simp [hslash]
    rw [List.map_cons, closes_cons, closes_cons, ih, hhead, hstar]

theorem mem_map_iff_of_fixed {f : Char → Char} {x : Char} (hf : ∀ c, f c = x ↔ c = x) :
    x ∈ l.map f ↔ x ∈ l := by
  simp [List.mem_map, hf]

/-- The end of a comment is nowhere in front of the last character. -/
theorem closedOnce_iff {line : String} : ClosedOnce line ↔ ¬Closes line.toList.dropLast := by
  constructor
  · rintro honce ⟨front, rest, hsplit⟩
    rcases List.eq_nil_or_concat' line.toList with hnil | ⟨init, last, hline⟩
    · simp [hnil] at hsplit
    · rw [hline, List.dropLast_concat] at hsplit
      have hrest := honce front (rest ++ [last]) (by rw [hline, ← hsplit]; simp)
      simp at hrest
  · intro hnot front rest hline
    rcases List.eq_nil_or_concat' rest with hrest | ⟨rest, last, rfl⟩
    · exact hrest
    · have hlast : line.toList = (front ++ '*' :: '/' :: rest) ++ [last] := by simp [hline]
      refine absurd ⟨front, rest, ?_⟩ hnot
      rw [hlast, List.dropLast_concat]
      simp

/-- A line feed as a comment shows it. -/
def spaced (c : Char) : Char := if c = '\n' then ' ' else c

theorem spaced_eq_iff {c x : Char} (hfeed : x ≠ '\n') (hblank : x ≠ ' ') :
    spaced c = x ↔ c = x := by
  unfold spaced
  split
  · rename_i hc
    exact iff_of_false (Ne.symm hblank) fun heq => hfeed (heq ▸ hc)
  · rfl

theorem not_mem_map_spaced : '\n' ∉ l.map spaced := by
  rintro hmem
  obtain ⟨c, -, hc⟩ := List.mem_map.mp hmem
  unfold spaced at hc
  split at hc
  · cases hc
  · contradiction

end Text

namespace Diagnostic

open Text

variable (d : Diagnostic)

/-- The texts that a diagnostic is made of. -/
def texts : List String := d.severity.name :: d.message :: d.cause.toList

/-- What stands between the start and the end of the comment. -/
def content : List Char :=
  d.severity.name.toList.map upperChar ++ ':' :: ' ' :: (d.message.toList ++ d.causeText.toList)

theorem toList_comment : d.comment.toList =
    "/* ".toList ++ (d.content.map spaced ++ " */".toList) := by
  show (String.map spaced _).toList = _
  rw [String.toList_map]
  simp [content, upperCase, spaced, List.map_append]

theorem framed_comment : Framed d.comment where
  opened := by
    rw [toList_comment]
    exact List.prefix_append _ _
  closed := by
    rw [toList_comment, ← List.append_assoc]
    exact List.suffix_append _ _
  unbroken := by
    rw [toList_comment]
    simp [not_mem_map_spaced]

/-- Of characters that do not divide the texts, the comment has those of the texts. -/
theorem mem_content {x : Char} (hpos : 0 < x.toNat) (hx : x.toNat < 65) (hcolon : x ≠ ':')
    (hblank : x ≠ ' ') : x ∈ d.content ↔ ∃ t ∈ d.texts, x ∈ t.toList := by
  have hupper : x ∈ d.severity.name.toList.map upperChar ↔ x ∈ d.severity.name.toList :=
    mem_map_iff_of_fixed fun c => upperChar_eq_iff hpos hx
  have hcause : x ∈ d.causeText.toList ↔ ∃ t ∈ d.cause.toList, x ∈ t.toList := by
    unfold causeText
    cases d.cause with
    | none => simp
    | some t => simp [hcolon, hblank]
  simp only [content, texts, List.mem_append, List.mem_cons, hupper, hcause, hcolon, hblank,
    false_or, exists_eq_or_imp]

/-- The comment has a carriage return iff one of the texts has. -/
theorem return_mem_comment : '\r' ∈ d.comment.toList ↔ ∃ t ∈ d.texts, '\r' ∈ t.toList := by
  have hspaced : '\r' ∈ d.content.map spaced ↔ '\r' ∈ d.content :=
    mem_map_iff_of_fixed fun c => spaced_eq_iff (by decide) (by decide)
  rw [toList_comment, List.mem_append, List.mem_append, hspaced,
    mem_content d (by decide) (by decide) (by decide) (by decide)]
  simp

theorem closes_content : Closes d.content ↔ ∃ t ∈ d.texts, Closes t.toList := by
  have hcolon {l l' : List Char} : Closes (l ++ ':' :: ' ' :: l') ↔ Closes l ∨ Closes l' := by
    rw [closes_append_cons (by decide) (by decide), closes_cons]
    simp
  have hupper : Closes (d.severity.name.toList.map upperChar) ↔ Closes d.severity.name.toList :=
    closes_map (fun c => upperChar_eq_iff (by decide) (by decide))
      fun c => upperChar_eq_iff (by decide) (by decide)
  have hcause : Closes (d.message.toList ++ d.causeText.toList) ↔
      Closes d.message.toList ∨ ∃ t ∈ d.cause.toList, Closes t.toList := by
    unfold causeText
    cases d.cause with
    | none => simp
    | some t =>
      have htext : (": " ++ t).toList = ':' :: ' ' :: t.toList := by simp
      rw [htext, hcolon]
      simp
  rw [content, hcolon, hupper, hcause]
  simp only [texts, List.exists_mem_cons_iff]

/-- The comment ends where it should iff no text has the end of a comment in it. -/
theorem closedOnce_comment : ClosedOnce d.comment ↔ ∀ t ∈ d.texts, ¬Closes t.toList := by
  have hfront : d.comment.toList.dropLast =
      ['/', '*'] ++ ' ' :: (d.content.map spaced ++ ' ' :: ['*']) := by
    have hlast : d.comment.toList =
        (['/', '*'] ++ ' ' :: (d.content.map spaced ++ ' ' :: ['*'])) ++ ['/'] := by
      simp [toList_comment]
    rw [hlast, List.dropLast_concat]
  have hspaced : Closes (d.content.map spaced) ↔ Closes d.content :=
    closes_map (fun c => spaced_eq_iff (by decide) (by decide))
      fun c => spaced_eq_iff (by decide) (by decide)
  rw [closedOnce_iff, hfront, closes_append_cons (by decide) (by decide),
    closes_append_cons (by decide) (by decide), hspaced, closes_content]
  simp [closes_cons, not_closes_nil]

/-- Each diagnostic of the level has one line, in order. The line is framed as a comment; it has a
carriage return, or the end of a comment before its own, iff one of the texts has. -/
theorem comments_framed (ds : List Diagnostic) (level : Severity) :
    List.Forall₂
      (fun d line => Framed line ∧ ('\r' ∈ line.toList ↔ ∃ t ∈ d.texts, '\r' ∈ t.toList) ∧
        (ClosedOnce line ↔ ∀ t ∈ d.texts, ¬Closes t.toList))
      (ds.filter fun d => d.severity.atLeast level) (comments ds level) := by
  rw [comments, List.forall₂_map_right_iff, List.forall₂_same]
  exact fun d _ => ⟨framed_comment d, return_mem_comment d, closedOnce_comment d⟩

/-- A message with a carriage return, and one with the end of a comment. -/
def unruly : List Diagnostic :=
  ["bad\rgraph", "a */ b"].map fun message =>
    { stage := "", severity := .error, code := "", message }

/-- The comments of these have a line break, and an end before the last characters. -/
theorem comments_break_or_close_early :
    comments unruly .debug = ["/* ERROR: bad\rgraph */", "/* ERROR: a */ b */"] ∧
      '\r' ∈ "/* ERROR: bad\rgraph */".toList ∧ ¬ClosedOnce "/* ERROR: a */ b */" := by
  refine ⟨by decide +kernel, by decide, fun honce => ?_⟩
  have hrest := honce "/* ERROR: a ".toList " b */".toList (by decide)
  revert hrest
  decide

end Diagnostic

end TryRegions
