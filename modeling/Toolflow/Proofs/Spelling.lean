import Toolflow.Compile
import Toolflow.Proofs.Json.Soundness

/-!
# Compiling a text

A text is read to a value just if it spells that value in the grammar of JSON (`parse_eq_ok_iff`).
So it compiles as the value it spells, and a text that spells none is refused as no JSON
(`text_compiles_as_spelled`).
-/

namespace Toolflow

open Json

theorem readValue_eq_ok_iff {text : String} {v : Json} :
    readValue text = .ok v ↔ SpelledBy text v := by
  rw [← parse_eq_ok_iff, readValue]
  split
  · next h => rw [h, Except.ok.injEq, Except.ok.injEq]
  · next h => simp [h]

theorem readValue_of_not_spelled {text : String} (h : ∀ v, ¬ SpelledBy text v) :
    ∃ detail, readValue text = .error (.notJson detail) := by
  rw [readValue]
  cases hparse : parse text with
  | ok v => exact absurd (parse_eq_ok_iff.mp hparse) (h v)
  | error failure => exact ⟨failure.message, rfl⟩

/-- **A text compiles as the value it spells**, and one that spells no value is no JSON. -/
theorem text_compiles_as_spelled (text : String) :
    (∀ v, SpelledBy text v → parse text = .ok v ∧ compileText text = compile v) ∧
      ((∀ v, ¬ SpelledBy text v) → ∃ detail, compileText text = .error (.notJson detail)) := by
  constructor
  · intro v hv
    have hread := readValue_eq_ok_iff.mpr hv
    exact ⟨parse_eq_ok_iff.mpr hv, by rw [compileText, hread]⟩
  · intro hnone
    obtain ⟨detail, hread⟩ := readValue_of_not_spelled hnone
    exact ⟨detail, by rw [compileText, hread]⟩

/-! ## a text that spells a value in an unusual way -/

/-- white space, escapes, a pair of surrogates, minus zero and a repeated key -/
def garbled : String :=
  "\x7b\"nodes\":-0,\n \"\\u006eodes\" : [ ],\"connections\":[\"\\ud83d\\uDE00\"]\x7d "

def garbledValue : Json := .obj [("connections", .arr [.str "😀"]), ("nodes", .arr [])]

/-- the members of `garbled`, in the order in which they are written -/
def garbledMembers : List Member :=
  [⟨"\"nodes\"".toList, "nodes", [], ['-', '0'], .num .real⟩,
   ⟨"\n \"\\u006eodes\"".toList, "nodes", [' '], [' ', '[', ' ', ']'], .arr []⟩,
   ⟨"\"connections\"".toList, "connections", [], "[\"\\ud83d\\uDE00\"]".toList, .arr [.str "😀"]⟩]

theorem spells_minusZero (d : Nat) : Spells d ['-', '0'] (.num .real) := by
  let l : Literal := ⟨true, ['0'], [], none, .singleton rfl, fun _ => rfl, List.forall_mem_nil _⟩
  have hfits : ¬ l.Fits := by
    rintro ⟨-, -, hpos, -⟩
    exact absurd hpos (by decide)
  have hsmall : ¬ l.TooLarge := Bool.false_ne_true
  exact .number d (l := l) (.real hfits hsmall)

theorem spellsChar_n : SpellsChar ['\\', 'u', '0', '0', '6', 'e'] 'n' := by
  have hdigits : List.Forall₂ HexDigit ['0', '0', '6', 'e'] [0, 0, 6, 14] :=
    .cons (by decide) (.cons (by decide) (.cons (by decide) (.cons (by decide) .nil)))
  exact .unit ⟨rfl, _, hdigits, rfl⟩

theorem spellsChar_grin :
    SpellsChar ['\\', 'u', 'd', '8', '3', 'd', '\\', 'u', 'D', 'E', '0', '0'] '😀' := by
  have hhigh : List.Forall₂ HexDigit ['d', '8', '3', 'd'] [13, 8, 3, 13] :=
    .cons (by decide) (.cons (by decide) (.cons (by decide) (.cons (by decide) .nil)))
  have hlow : List.Forall₂ HexDigit ['D', 'E', '0', '0'] [13, 14, 0, 0] :=
    .cons (by decide) (.cons (by decide) (.cons (by decide) (.cons (by decide) .nil)))
  have hhighUnit : SpellsUnit ['d', '8', '3', 'd'] (highUnit '😀') := ⟨rfl, _, hhigh, by decide⟩
  have hlowUnit : SpellsUnit ['D', 'E', '0', '0'] (lowUnit '😀') := ⟨rfl, _, hlow, by decide⟩
  exact .pair (by decide) hhighUnit hlowUnit

theorem spelledBy_garbled : SpelledBy garbled garbledValue := by
  have hempty (d : Nat) : Spells (d + 1) [' ', '[', ' ', ']'] (.arr []) :=
    (Spells.emptyArray d (b := [' ']) (by decide)).blank_append (b := [' ']) (by decide)
  have hgrin (d : Nat) : Spells (d + 1) "[\"\\ud83d\\uDE00\"]".toList (.arr [.str "😀"]) := by
    have hs := Spells.string d (SpellsString.nil.concat spellsChar_grin)
    exact @Spells.array d [(_, _)] (List.cons_ne_nil _ _) (List.forall_mem_singleton.mpr hs)
  have hnodes : SpellsKey "\"nodes\"".toList "nodes" :=
    ⟨[], _, _, by decide, .plain (t := "nodes".toList) (by decide), rfl, rfl⟩
  have hescaped : SpellsKey "\n \"\\u006eodes\"".toList "nodes" :=
    ⟨['\n', ' '], _, _, by decide,
      .cons spellsChar_n (.plain (t := "odes".toList) (by decide)), rfl, rfl⟩
  have hconnections : SpellsKey "\"connections\"".toList "connections" :=
    ⟨[], _, _, by decide, .plain (t := "connections".toList) (by decide), rfl, rfl⟩
  have hkeys : ∀ m ∈ garbledMembers, SpellsKey m.keyText m.key ∧ Blank m.blank :=
    List.forall_mem_cons.mpr ⟨⟨hnodes, by decide⟩, List.forall_mem_cons.mpr
      ⟨⟨hescaped, by decide⟩, List.forall_mem_singleton.mpr ⟨hconnections, by decide⟩⟩⟩
  have hvalues : ∀ m ∈ garbledMembers, Spells 126 m.valueText m.value :=
    List.forall_mem_cons.mpr ⟨spells_minusZero 126, List.forall_mem_cons.mpr
      ⟨hempty 125, List.forall_mem_singleton.mpr (hgrin 125)⟩⟩
  have hobj := Spells.object 126 (by decide) hkeys hvalues
  have htext : garbled.toList = [] ++ '\x7b' :: (List.intercalate [',']
      (garbledMembers.map Member.text) ++ ['\x7d']) ++ [' '] := by decide
  rw [SpelledBy, htext]
  exact .padded (by decide) (by decide) hobj

/-- a lone surrogate spells nothing -/
theorem not_spelledBy_lone (v : Json) : ¬ SpelledBy "[\"\\ud83d\"]" v := by
  intro h
  have hok : (parse "[\"\\ud83d\"]").isOk = false := by decide
  rw [parse_eq_ok_iff.mpr h] at hok
  cases hok

theorem text_compiles_as_spelled_garbled : SpelledBy garbled garbledValue ∧
    parse garbled = .ok garbledValue ∧ compileText garbled = compile garbledValue ∧
    (∀ v, ¬ SpelledBy "[\"\\ud83d\"]" v) ∧
    ∃ detail, compileText "[\"\\ud83d\"]" = .error (.notJson detail) := by
  obtain ⟨hparse, hcompile⟩ := (text_compiles_as_spelled garbled).1 _ spelledBy_garbled
  exact ⟨spelledBy_garbled, hparse, hcompile, not_spelledBy_lone,
    (text_compiles_as_spelled _).2 not_spelledBy_lone⟩

end Toolflow
