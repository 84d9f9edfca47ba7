import Toolflow.Proofs.Listing
import Toolflow.Tool.Reading

/-!
# What the settings of a tool are read from

The settings of a kind are looked up under a few keys, and the parts of an entry under a few names.
Whatever else stands there, and in whatever order, is not read.

* `Kind.settingKeys`, `Kind.listKeys`   the keys that a kind reads: those of single settings, and
                       those of lists with the names of the parts of an entry;
* `Json.SameAt keys a b`   two values hold the same under these keys;
* `Json.SameEntry`, `Json.SameList`   two entries, and two lists of entries, that differ in unread
                       members only;
* `Json.SameConfig kind a b`   two values that differ, for a tool of this kind, in unread members
                       only;
* `Settings.ofMembers_congr`   they give the same settings.

The entries of some lists are strings.  These have no named parts, and an object in their place is
passed over whatever it holds.
-/

namespace Toolflow

namespace Kind

def settingKeys : Kind → List String
  | input | output => ["table_name"]
  | filter => ["filter_expression"]
  | sample => ["n", "method"]
  | _ => []

/-- the keys of the lists of a kind, each with the parts of its entries -/
def listKeys : Kind → List (String × List String)
  | summarize => [("group_fields", []), ("agg_fields", Aggregation.parts)]
  | formula => [("formulas", Assignment.parts)]
  | sort => [("sort_keys", SortTerm.parts)]
  | join => [("join_fields", Match.parts)]
  | select => [("select_fields", Column.parts)]
  | unique => [("unique_fields", [])]
  | _ => []

end Kind

namespace Json

def SameAt (keys : List String) (a b : Json) : Prop := ∀ key ∈ keys, a.get? key = b.get? key

/-- the same entry but for members under other names -/
def SameEntry (names : List String) (a b : Json) : Prop :=
  a = b ∨ ∃ m m', a = .obj m ∧ b = .obj m' ∧ SameAt names a b

/-- the same list but for such members in its entries -/
def SameList (names : List String) (a b : Option Json) : Prop :=
  a = b ∨ ∃ items items', a = some (.arr items) ∧ b = some (.arr items') ∧
    List.Forall₂ (SameEntry names) items items'

def SameConfig (kind : Kind) (a b : Json) : Prop :=
  SameAt kind.settingKeys a b ∧ ∀ p ∈ kind.listKeys, SameList p.2 (a.get? p.1) (b.get? p.1)

section
variable {α : Type} {form : Json → Option α} {names : List String} {a b : Json}

theorem setting_congr {key : String} (h : a.get? key = b.get? key) :
    setting form key a.members = setting form key b.members :=
  congrArg (Option.bind · form) h

theorem entries_congr (hform : ∀ x y, SameEntry names x y → form x = form y) {key : String}
    (h : SameList names (a.get? key) (b.get? key)) :
    entries form key a.members = entries form key b.members := by
  rcases h with heq | ⟨items, items', ha, hb, hall⟩
  · unfold get? at heq
    rw [entries, heq, entries]
  · rw [entries_of_find? form key ha, entries_of_find? form key hb]
    exact filterMap_eq_of_forall₂ hform hall

/-! ## entries -/

theorem string?_congr (h : SameEntry names a b) : a.string? = b.string? := by
  obtain rfl | ⟨m, m', rfl, rfl, _⟩ := h
  · rfl
  · rfl

/-- what is made of the named parts is the same -/
theorem record?_congr {make : Members → α}
    (hmake : ∀ x y : Json, SameAt names x y → make x.members = make y.members)
    (h : SameEntry names a b) : (record? names a).map make = (record? names b).map make := by
  obtain rfl | ⟨m, m', rfl, rfl, hsame⟩ := h
  · rfl
  · exact congrArg some (hmake (.obj m) (.obj m') hsame)

end

end Json

open Json (SameAt SameEntry setting_congr entries_congr record?_congr)

section
variable {a b : Json}

theorem Aggregation.read?_congr (h : SameEntry parts a b) : read? a = read? b := by
  refine record?_congr (fun x y hsame => ?_) h
  unfold ofMembers
  rw [setting_congr (hsame "field" (by decide)), setting_congr (hsame "action" (by decide)),
    setting_congr (hsame "rename" (by decide))]

theorem Assignment.read?_congr (h : SameEntry parts a b) : read? a = read? b := by
  refine record?_congr (fun x y hsame => ?_) h
  unfold ofMembers
  rw [setting_congr (hsame "field" (by decide)), setting_congr (hsame "expression" (by decide))]

theorem SortTerm.read?_congr (h : SameEntry parts a b) : read? a = read? b := by
  refine record?_congr (fun x y hsame => ?_) h
  unfold ofMembers
  rw [setting_congr (hsame "field" (by decide)), setting_congr (hsame "order" (by decide))]

theorem Match.read?_congr (h : SameEntry parts a b) : read? a = read? b := by
  refine record?_congr (fun x y hsame => ?_) h
  unfold ofMembers
  rw [setting_congr (hsame "left" (by decide)), setting_congr (hsame "right" (by decide))]

theorem Column.read?_congr (h : SameEntry parts a b) : read? a = read? b := by
  refine record?_congr (fun x y hsame => ?_) h
  unfold ofMembers
  rw [setting_congr (hsame "field" (by decide)), setting_congr (hsame "selected" (by decide))]

/-! ## settings -/

/-- **Members that a kind does not read have no influence on its settings.** -/
theorem Settings.ofMembers_congr {kind : Kind} (h : Json.SameConfig kind a b) :
    ofMembers a.members kind = ofMembers b.members kind := by
  obtain ⟨hsetting, hlist⟩ := h
  cases kind with
  | input => exact congrArg input (setting_congr (hsetting _ (.head _)))
  | output => exact congrArg output (setting_congr (hsetting _ (.head _)))
  | filter => exact congrArg filter (setting_congr (hsetting _ (.head _)))
  | summarize =>
    exact congrArg₂ summarize
      (entries_congr (fun _ _ => Json.string?_congr) (hlist _ (.head _)))
      (entries_congr (fun _ _ => Aggregation.read?_congr) (hlist _ (.tail _ (.head _))))
  | formula =>
    exact congrArg formula (entries_congr (fun _ _ => Assignment.read?_congr) (hlist _ (.head _)))
  | sort =>
    exact congrArg sort (entries_congr (fun _ _ => SortTerm.read?_congr) (hlist _ (.head _)))
  | join =>
    exact congrArg join (entries_congr (fun _ _ => Match.read?_congr) (hlist _ (.head _)))
  | select =>
    exact congrArg select (entries_congr (fun _ _ => Column.read?_congr) (hlist _ (.head _)))
  | sample =>
    exact congrArg₂ sample (setting_congr (hsetting _ (.head _)))
      (setting_congr (hsetting _ (.tail _ (.head _))))
  | unique =>
    exact congrArg unique (entries_congr (fun _ _ => Json.string?_congr) (hlist _ (.head _)))

end

end Toolflow
