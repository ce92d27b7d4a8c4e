/-
grep's matcher decides its regular expressions. A pattern is an optional '^' and a list of
items, read off from left to right; a text is recognised if the items match a part of
it, from its beginning if there is a '^'.
-/
import Xv6.Grep.Model

namespace Xv6.Grep

/-- An item of a pattern: zero or more of a character, the end of the text, any character, or one character. -/
inductive Item where
  | many (c : UInt8)
  | eot
  | any
  | one (c : UInt8)

/-- A single character as an item. -/
def Item.single (c : UInt8) : Item := if c = dot then .any else .one c

/-- The items of a pattern without its '^'. -/
def items : List UInt8 → List Item
  | [] => []
  | [c] => if c = dollar then [.eot] else [.single c]
  | c :: d :: re => if d = star then .many c :: items re else .single c :: items (d :: re)

/-- The items match `w`, with `rest` behind it in the text. A starred '.' stands for any characters. -/
inductive Matches : List Item → List UInt8 → List UInt8 → Prop
  | nil {rest} : Matches [] [] rest
  | many {c u is w rest} : (∀ t ∈ u, t = c ∨ c = dot) → Matches is w rest → Matches (.many c :: is) (u ++ w) rest
  | eot : Matches [.eot] [] []
  | any {t is w rest} : Matches is w rest → Matches (.any :: is) (t :: w) rest
  | one {c is w rest} : Matches is w rest → Matches (.one c :: is) (c :: w) rest

/-- **The language of a pattern**: the items match a part of the text, at its beginning if the pattern has a '^'. -/
def Recognises (re text : List UInt8) : Prop := ∃ u w rest, text = u ++ (w ++ rest) ∧
  if re.head? = some caret then u = [] ∧ Matches (items re.tail) w rest else Matches (items re) w rest

/-- The items match a beginning of the text. -/
def Begins (is : List Item) (text : List UInt8) : Prop := ∃ w rest, text = w ++ rest ∧ Matches is w rest

variable {c t : UInt8} {re text : List UInt8} {is : List Item}

theorem begins_nil : Begins [] text := ⟨[], text, rfl, .nil⟩

theorem begins_eot : Begins [.eot] text ↔ text = [] := by
  constructor
  · rintro ⟨w, rest, rfl, h⟩
    cases h
    rfl
  · rintro rfl
    exact ⟨[], [], rfl, .eot⟩

theorem begins_single_nil : ¬ Begins (.single c :: is) [] := by
  rintro ⟨w, rest, h, hm⟩
  obtain ⟨rfl, rfl⟩ := List.append_eq_nil_iff.mp h.symm
  unfold Item.single at hm
  split at hm <;> cases hm

theorem begins_single_cons : Begins (.single c :: is) (t :: text) ↔ (c = dot ∨ c = t) ∧ Begins is text := by
  unfold Item.single
  split
  · next hc =>
    constructor
    · rintro ⟨w, rest, h, hm⟩
      cases hm with
      | any hm =>
        obtain ⟨rfl, rfl⟩ := List.cons.inj h
        exact ⟨.inl hc, _, rest, rfl, hm⟩
    · rintro ⟨-, w, rest, rfl, hm⟩
      exact ⟨t :: w, rest, rfl, .any hm⟩
  · next hc =>
    constructor
    · rintro ⟨w, rest, h, hm⟩
      cases hm with
      | one hm =>
        obtain ⟨rfl, rfl⟩ := List.cons.inj h
        exact ⟨.inr rfl, _, rest, rfl, hm⟩
    · rintro ⟨hct, w, rest, rfl, hm⟩
      obtain rfl := hct.resolve_left hc
      exact ⟨c :: w, rest, rfl, .one hm⟩

theorem begins_many : Begins (.many c :: is) text ↔
    ∃ u v, text = u ++ v ∧ (∀ t ∈ u, t = c ∨ c = dot) ∧ Begins is v := by
  constructor
  · rintro ⟨w, rest, rfl, hm⟩
    cases hm with
    | @many _ u _ w _ hu hm => exact ⟨u, w ++ rest, List.append_assoc .., hu, w, rest, rfl, hm⟩
  · rintro ⟨u, v, rfl, hu, w, rest, rfl, hm⟩
    exact ⟨u ++ w, rest, (List.append_assoc ..).symm, .many hu hm⟩

/-- The loop of matchstar tries every run of the character, the shortest first. -/
theorem starLoop_iff {here : List UInt8 → Bool} : starLoop c here text = true ↔
    ∃ u v, text = u ++ v ∧ (∀ t ∈ u, t = c ∨ c = dot) ∧ here v = true := by
  induction text with
  | nil =>
    constructor
    · exact fun h => ⟨[], [], rfl, by simp, h⟩
    · rintro ⟨u, v, h, -, hv⟩
      obtain ⟨rfl, rfl⟩ := List.append_eq_nil_iff.mp h.symm
      exact hv
  | cons t text ih =>
    simp only [starLoop, Bool.or_eq_true, Bool.and_eq_true, decide_eq_true_eq, ih]
    constructor
    · rintro (h | ⟨ht, u, v, rfl, hu, hv⟩)
      · exact ⟨[], t :: text, rfl, by simp, h⟩
      · exact ⟨t :: u, v, rfl, by simpa using ⟨ht, hu⟩, hv⟩
    · rintro ⟨u, v, h, hu, hv⟩
      cases u with
      | nil =>
        rw [List.nil_append] at h
        exact .inl (h ▸ hv)
      | cons a u =>
        obtain ⟨rfl, rfl⟩ := List.cons.inj h
        exact .inr ⟨hu t List.mem_cons_self, u, v, rfl, fun b hb => hu b (List.mem_cons_of_mem _ hb), hv⟩

/-- matchhere decides whether the text begins with a match. The recursion is the code's, on the pattern. -/
theorem matchhere_iff : ∀ re text, matchhere re text = true ↔ Begins (items re) text
  | [], text => by simp [matchhere, items, begins_nil]
  | [c], text => by
    by_cases hc : c = dollar
    · simp [matchhere, items, hc, begins_eot]
    · cases text with
      | nil => simp [matchhere, items, hc, begins_single_nil]
      | cons t text => simp [matchhere, items, hc, begins_single_cons, begins_nil]
  | c :: d :: re, text => by
    by_cases hd : d = star
    · simp only [matchhere, items, hd, if_true, starLoop_iff, begins_many, matchhere_iff re]
    · cases text with
      | nil => simp [matchhere, items, hd, begins_single_nil]
      | cons t text => simp [matchhere, items, hd, begins_single_cons, matchhere_iff (d :: re) text]

theorem matchLoop_iff : matchLoop re text = true ↔ ∃ u v, text = u ++ v ∧ Begins (items re) v := by
  induction text with
  | nil =>
    rw [matchLoop, matchhere_iff]
    constructor
    · exact fun h => ⟨[], [], rfl, h⟩
    · rintro ⟨u, v, h, hv⟩
      obtain ⟨rfl, rfl⟩ := List.append_eq_nil_iff.mp h.symm
      exact hv
  | cons t text ih =>
    rw [matchLoop, Bool.or_eq_true, matchhere_iff, ih]
    constructor
    · rintro (h | ⟨u, v, rfl, hv⟩)
      · exact ⟨[], t :: text, rfl, h⟩
      · exact ⟨t :: u, v, rfl, hv⟩
    · rintro ⟨u, v, h, hv⟩
      cases u with
      | nil =>
        rw [List.nil_append] at h
        exact .inl (h ▸ hv)
      | cons a u =>
        obtain ⟨rfl, rfl⟩ := List.cons.inj h
        exact .inr ⟨u, v, rfl, hv⟩

/-- **The matcher decides the language of the pattern.** -/
theorem matchText_iff_recognises (re text : List UInt8) : matchText re text = true ↔ Recognises re text := by
  have hloop (h : re.head? ≠ some caret) : matchLoop re text = true ↔ Recognises re text := by
    unfold Recognises
    simp only [if_neg h]
    rw [matchLoop_iff]
    constructor
    · rintro ⟨u, v, rfl, w, rest, rfl, hm⟩
      exact ⟨u, w, rest, rfl, hm⟩
    · rintro ⟨u, w, rest, rfl, hm⟩
      exact ⟨u, w ++ rest, rfl, w, rest, rfl, hm⟩
  cases re with
  | nil => exact hloop (by simp)
  | cons c re =>
    rw [matchText]
    split
    · next hc =>
      unfold Recognises
      simp only [List.head?_cons, hc, if_true, List.tail_cons]
      rw [matchhere_iff]
      constructor
      · rintro ⟨w, rest, rfl, hm⟩
        exact ⟨[], w, rest, rfl, rfl, hm⟩
      · rintro ⟨u, w, rest, rfl, rfl, hm⟩
        exact ⟨w, rest, rfl, hm⟩
    · next hc => exact hloop (by simpa using hc)

/-- `^a*b$` on "aab": '^', 'a', '*', 'b', '$'. -/
example : matchText [94, 97, 42, 98, 36] [97, 97, 98] = true := by decide

/-- A '$' that is not the last item, and a '*' with nothing before it, are characters: `$*x` on "x", `*x` on "x". -/
example : matchText [36, 42, 120] [120] = true ∧ matchText [42, 120] [120] = false := by decide

end Xv6.Grep
