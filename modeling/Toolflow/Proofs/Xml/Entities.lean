import Mathlib.Data.List.Basic
import Toolflow.Xml.Escape

/-!
# Escaping is a code

Every text is the meaning of its escaped form, and a text is an escaped form as soon as it looks
like one.

* `entities`        the five named entities with the characters that they stand for;
* `withEntities`    a text with these in place of the characters, which is its escaped form;
* `unescape`        each entity in a text as its character; an ampersand that begins none of them
                    is left as it is;
* `Escaped`         what an escaped text looks like: four characters do not occur in it, and each
                    ampersand begins an entity;
* `Escaped.cases`   so it is empty, or begins with an entity or with a character that stands for
                    itself, and what is behind looks the same.  Both directions follow this;
* `escape_is_code`  the two are inverse to each other, on all texts and on those that are escaped.

`Escaped` speaks of all ampersands of a text at once, without cutting the text into pieces.
-/

namespace Toolflow.Xml

/-! ## entities -/

def entities : List (Char × List Char) :=
  [('<', ['&', 'l', 't', ';']), ('>', ['&', 'g', 't', ';']), ('&', ['&', 'a', 'm', 'p', ';']),
    ('\'', ['&', 'a', 'p', 'o', 's', ';']), ('"', ['&', 'q', 'u', 'o', 't', ';'])]

/-- a text with an entity in place of each character that has one -/
def withEntities (s : List Char) : List Char := s.flatMap fun c => (entities.lookup c).getD [c]

theorem mem_reserved_iff {c : Char} :
    c ∈ reserved ↔ c = '<' ∨ c = '>' ∨ c = '&' ∨ c = '\'' ∨ c = '"' := by
  simp [reserved]

theorem mem_entities_iff {e : Char × List Char} :
    e ∈ entities ↔ e = ('<', ['&', 'l', 't', ';']) ∨ e = ('>', ['&', 'g', 't', ';'])
      ∨ e = ('&', ['&', 'a', 'm', 'p', ';']) ∨ e = ('\'', ['&', 'a', 'p', 'o', 's', ';'])
      ∨ e = ('"', ['&', 'q', 'u', 'o', 't', ';']) := by
  simp [entities]

theorem entity_of_mem_reserved {c : Char} (h : c ∈ reserved) : (c, escapeChar c) ∈ entities := by
  rcases mem_reserved_iff.mp h with rfl | rfl | rfl | rfl | rfl <;> decide

theorem mem_reserved_of_entity {e : Char × List Char} (h : e ∈ entities) : e.1 ∈ reserved := by
  rcases mem_entities_iff.mp h with rfl | rfl | rfl | rfl | rfl <;> decide

theorem escapeChar_of_entity {e : Char × List Char} (h : e ∈ entities) : escapeChar e.1 = e.2 := by
  rcases mem_entities_iff.mp h with rfl | rfl | rfl | rfl | rfl <;> rfl

theorem lookup_entities (c : Char) : (entities.lookup c).getD [c] = escapeChar c := by
  by_cases hc : c ∈ reserved
  · rcases mem_reserved_iff.mp hc with rfl | rfl | rfl | rfl | rfl <;> rfl
  · have hnone : entities.lookup c = none := by
      refine List.lookup_eq_none_iff.mpr fun e he => bne_iff_ne.mpr ?_
      rintro rfl
      exact hc (mem_reserved_of_entity he)
    rw [hnone, escapeChar_of_notMem hc]
    rfl

theorem withEntities_eq (s : List Char) : withEntities s = escapeChars s :=
  congrArg s.flatMap (funext lookup_entities)

/-- an entity begins with an ampersand and has no other, nor one of the other four characters -/
theorem exists_cons_of_entity {e : Char × List Char} (h : e ∈ entities) :
    ∃ name, e.2 = '&' :: name ∧ ∀ c ∈ name, c ∉ reserved := by
  rcases mem_entities_iff.mp h with rfl | rfl | rfl | rfl | rfl
  all_goals exact ⟨_, rfl, by simp [reserved]⟩

/-! ## decoding -/

def unescapeChars : List Char → List Char
  | '&' :: 'l' :: 't' :: ';' :: rest => '<' :: unescapeChars rest
  | '&' :: 'g' :: 't' :: ';' :: rest => '>' :: unescapeChars rest
  | '&' :: 'a' :: 'm' :: 'p' :: ';' :: rest => '&' :: unescapeChars rest
  | '&' :: 'a' :: 'p' :: 'o' :: 's' :: ';' :: rest => '\'' :: unescapeChars rest
  | '&' :: 'q' :: 'u' :: 'o' :: 't' :: ';' :: rest => '"' :: unescapeChars rest
  | c :: rest => c :: unescapeChars rest
  | [] => []

def unescape (s : String) : String := String.ofList (unescapeChars s.toList)

theorem unescapeChars_entity {e : Char × List Char} (h : e ∈ entities) (rest : List Char) :
    unescapeChars (e.2 ++ rest) = e.1 :: unescapeChars rest := by
  rcases mem_entities_iff.mp h with rfl | rfl | rfl | rfl | rfl <;> rfl

theorem unescapeChars_cons_of_ne {c : Char} (h : c ≠ '&') (rest : List Char) :
    unescapeChars (c :: rest) = c :: unescapeChars rest := by
  rw [unescapeChars]
  all_goals exact fun _ hc => absurd hc h

theorem unescapeChars_escapeChars (s : List Char) : unescapeChars (escapeChars s) = s := by
  induction s with
  | nil => rfl
  | cons c rest ih =>
    rw [escapeChars_cons]
    by_cases hc : c ∈ reserved
    · rw [unescapeChars_entity (entity_of_mem_reserved hc), ih]
    · have hne : c ≠ '&' := fun heq => hc (by rw [heq]; decide)
      rw [escapeChar_of_notMem hc, List.singleton_append, unescapeChars_cons_of_ne hne, ih]

/-! ## escaped texts -/

structure Escaped (t : List Char) : Prop where
  absent : ∀ c ∈ ['<', '>', '\'', '"'], c ∉ t
  entity : ∀ before rest, t = before ++ '&' :: rest → ∃ e ∈ entities, e.2 <+: '&' :: rest

/-- the reserved characters that no entity holds -/
theorem mem_absent_iff {c : Char} : c ∈ ['<', '>', '\'', '"'] ↔ c ∈ reserved ∧ c ≠ '&' := by
  simp only [mem_reserved_iff, List.mem_cons, List.not_mem_nil, or_false]
  constructor
  · rintro (rfl | rfl | rfl | rfl) <;> decide
  · rintro ⟨rfl | rfl | rfl | rfl | rfl, hne⟩
    all_goals first | decide | exact absurd rfl hne

section
variable {t rest : List Char}

theorem escaped_nil : Escaped [] where
  absent := fun _ _ => List.not_mem_nil
  entity := fun before rest h => by simp at h

/-- what stands behind some characters of an escaped text is escaped, too -/
theorem Escaped.of_append {before : List Char} (h : Escaped (before ++ rest)) : Escaped rest where
  absent := fun c hc hmem => h.absent c hc (List.mem_append_right before hmem)
  entity := fun middle rest' hrest => by
    apply h.entity (before ++ middle)
    rw [hrest, List.append_assoc]

theorem Escaped.cons {c : Char} (hc : c ∉ reserved) (h : Escaped rest) : Escaped (c :: rest) where
  absent := by
    intro d hd hmem
    rcases List.mem_cons.mp hmem with rfl | hmem
    · exact hc (mem_absent_iff.mp hd).1
    · exact h.absent d hd hmem
  entity := by
    intro before rest' heq
    cases before with
    | nil =>
      rw [List.nil_append] at heq
      have hamp : c = '&' := (List.cons.inj heq).1
      exact absurd (by rw [hamp]; decide) hc
    | cons b before => exact h.entity before rest' (List.cons.inj heq).2

theorem Escaped.append_of_notMem {plain : List Char} (hplain : ∀ c ∈ plain, c ∉ reserved)
    (h : Escaped rest) : Escaped (plain ++ rest) := by
  induction plain with
  | nil => exact h
  | cons c plain ih =>
    exact .cons (hplain c List.mem_cons_self) (ih fun d hd => hplain d (List.mem_cons_of_mem c hd))

theorem Escaped.entity_append {e : Char × List Char} (he : e ∈ entities) (h : Escaped rest) :
    Escaped (e.2 ++ rest) := by
  obtain ⟨name, hname, hplain⟩ := exists_cons_of_entity he
  have hbehind : Escaped (name ++ rest) := h.append_of_notMem hplain
  constructor
  · intro c hc hmem
    rw [hname, List.cons_append] at hmem
    rcases List.mem_cons.mp hmem with rfl | hmem
    · exact absurd hc (by decide)
    · exact hbehind.absent c hc hmem
  · intro before rest' heq
    cases before with
    | nil =>
      rw [List.nil_append] at heq
      exact ⟨e, he, heq ▸ List.prefix_append e.2 rest⟩
    | cons b before =>
      rw [hname, List.cons_append, List.cons_append] at heq
      exact hbehind.entity before rest' (List.cons.inj heq).2

theorem escaped_escapeChars (s : List Char) : Escaped (escapeChars s) := by
  induction s with
  | nil => exact escaped_nil
  | cons c rest ih =>
    rw [escapeChars_cons]
    by_cases hc : c ∈ reserved
    · exact ih.entity_append (entity_of_mem_reserved hc)
    · rw [escapeChar_of_notMem hc]
      exact ih.cons hc

theorem Escaped.cases (h : Escaped t) :
    t = [] ∨ (∃ e ∈ entities, ∃ rest, t = e.2 ++ rest ∧ Escaped rest) ∨
      ∃ c rest, t = c :: rest ∧ c ∉ reserved ∧ Escaped rest := by
  cases t with
  | nil => exact .inl rfl
  | cons c rest =>
    right
    by_cases hamp : c = '&'
    · obtain ⟨e, he, rest', hrest⟩ := h.entity [] rest (by rw [hamp]; rfl)
      rw [hamp, ← hrest] at h ⊢
      exact .inl ⟨e, he, rest', rfl, h.of_append⟩
    · have hplain : c ∉ reserved := fun hc =>
        h.absent c (mem_absent_iff.mpr ⟨hc, hamp⟩) List.mem_cons_self
      have hcut : Escaped ([c] ++ rest) := h
      exact .inr ⟨c, rest, rfl, hplain, hcut.of_append⟩

theorem escapeChars_unescapeChars (t : List Char) (h : Escaped t) :
    escapeChars (unescapeChars t) = t := by
  rcases h.cases with rfl | ⟨e, he, rest, rfl, hrest⟩ | ⟨c, rest, rfl, hc, hrest⟩
  · rfl
  · have hshort : rest.length < (e.2 ++ rest).length := by
      obtain ⟨name, hname, _⟩ := exists_cons_of_entity he
      rw [hname, List.length_append, List.length_cons]
      omega
    rw [unescapeChars_entity he, escapeChars_cons, escapeChar_of_entity he,
      escapeChars_unescapeChars rest hrest]
  · have hne : c ≠ '&' := fun heq => hc (by rw [heq]; decide)
    rw [unescapeChars_cons_of_ne hne, escapeChars_cons, escapeChar_of_notMem hc,
      escapeChars_unescapeChars rest hrest]
    rfl
termination_by t.length

end

/-! ## texts -/

theorem unescape_escape (s : String) : unescape (escape s) = s := by
  rw [unescape, toList_escape, unescapeChars_escapeChars, String.ofList_toList]

theorem escape_injective {s t : String} (h : escape s = escape t) : s = t := by
  rw [← unescape_escape s, h, unescape_escape]

theorem escape_unescape_eq_iff {s : String} : escape (unescape s) = s ↔ Escaped s.toList := by
  constructor
  · intro h
    rw [← h, toList_escape]
    exact escaped_escapeChars _
  · intro h
    rw [escape_eq, unescape, String.toList_ofList, escapeChars_unescapeChars s.toList h,
      String.ofList_toList]

theorem escape_append (s t : String) : escape (s ++ t) = escape s ++ escape t := by
  simp only [escape_eq, String.toList_append, escapeChars_append, String.ofList_append]

/-! ### texts that stay as they are -/

/-- an entity is longer than the character that it stands for -/
theorem one_lt_length_escapeChar {c : Char} (h : c ∈ reserved) : 1 < (escapeChar c).length := by
  rcases mem_reserved_iff.mp h with rfl | rfl | rfl | rfl | rfl <;> decide

theorem length_escapeChar_pos (c : Char) : 1 ≤ (escapeChar c).length := by
  by_cases hc : c ∈ reserved
  · exact Nat.le_of_lt (one_lt_length_escapeChar hc)
  · rw [escapeChar_of_notMem hc]
    exact Nat.le_refl 1

theorem length_le_length_escapeChars (s : List Char) : s.length ≤ (escapeChars s).length := by
  induction s with
  | nil => exact Nat.le_refl 0
  | cons c rest ih =>
    have hc := length_escapeChar_pos c
    rw [escapeChars_cons, List.length_append, List.length_cons]
    omega

/-- an entity makes a text longer, and nothing behind it makes up for that -/
theorem escapeChars_eq_self_iff {s : List Char} :
    escapeChars s = s ↔ ∀ c ∈ s, c ∉ reserved := by
  refine ⟨fun h => ?_, escapeChars_of_notMem⟩
  induction s with
  | nil => exact fun c hc => absurd hc List.not_mem_nil
  | cons c rest ih =>
    rw [escapeChars_cons] at h
    by_cases hc : c ∈ reserved
    · exfalso
      have hentity := one_lt_length_escapeChar hc
      have hrest := length_le_length_escapeChars rest
      have hlength := congrArg List.length h
      rw [List.length_append, List.length_cons] at hlength
      omega
    · rw [escapeChar_of_notMem hc] at h
      exact List.forall_mem_cons.mpr ⟨hc, ih (List.cons.inj h).2⟩

theorem escape_eq_self_iff {s : String} : escape s = s ↔ ∀ c ∈ s.toList, c ∉ reserved := by
  rw [← escapeChars_eq_self_iff, ← toList_escape, String.toList_inj]

/-! ### the code -/

/-- what makes `escape` a code, said of one text -/
structure Coded (s : String) : Prop where
  decoded : unescape (escape s) = s
  escaped : Escaped (escape s).toList
  /-- conversely, a text that looks escaped is what its meaning is written as -/
  encoded_iff : escape (unescape s) = s ↔ Escaped s.toList
  append : ∀ t, escape (s ++ t) = escape s ++ escape t
  /-- the way past the characters gives what the way through them gives -/
  shortcut : escape s = String.ofList (escapeChars s.toList)
  same_iff : escape s = s ↔ ∀ c ∈ ['<', '>', '&', '\'', '"'], c ∉ s.toList
  /-- a text that escaping changes is changed once more -/
  again_iff : escape (escape s) = escape s ↔ escape s = s

/-- **Escaping is a faithful code.** -/
theorem escape_is_code (s : String) : Coded s where
  decoded := unescape_escape s
  escaped := by
    rw [toList_escape]
    exact escaped_escapeChars s.toList
  encoded_iff := escape_unescape_eq_iff
  append := escape_append s
  shortcut := escape_eq s
  same_iff := by
    rw [escape_eq_self_iff]
    exact ⟨fun h c hc hmem => h c hmem hc, fun h c hmem hc => h c hc hmem⟩
  again_iff := ⟨escape_injective, congrArg escape⟩

example : escape "a < b &amp; c" = "a &lt; b &amp;amp; c" := by decide

end Toolflow.Xml
