/-!
# Text inside XML

* `escape`       writes the five reserved characters as named entities; a text without any of them
                 is taken as it is;
* `commentBody`  what stands in a comment: escaped text with a space wherever two hyphens would
                 meet and behind a hyphen at the end.

`escape` works character by character (`escapeChar`).  `commentBody` takes one character at a time
and looks back at what it has written, its own spaces included (`pushApart`, `endApart`).  Looking
ahead instead gives the same: a space goes behind every hyphen that a hyphen or the end follows
(`separateHyphens`, `commentBody_eq`).
-/

namespace Toolflow.Xml

/-! ## entities -/

def reserved : List Char := ['<', '>', '&', '\'', '"']

def escapeChar : Char → List Char
  | '<' => ['&', 'l', 't', ';']
  | '>' => ['&', 'g', 't', ';']
  | '&' => ['&', 'a', 'm', 'p', ';']
  | '\'' => ['&', 'a', 'p', 'o', 's', ';']
  | '"' => ['&', 'q', 'u', 'o', 't', ';']
  | c => [c]

def escapeChars (s : List Char) : List Char := s.flatMap escapeChar

def escape (s : String) : String :=
  if s.toList.any reserved.contains then String.ofList (escapeChars s.toList) else s

theorem escapeChars_cons (c : Char) (s : List Char) :
    escapeChars (c :: s) = escapeChar c ++ escapeChars s := rfl

theorem escapeChars_append (a b : List Char) :
    escapeChars (a ++ b) = escapeChars a ++ escapeChars b := by
  simp [escapeChars]

theorem escapeChar_of_notMem {c : Char} (h : c ∉ reserved) : escapeChar c = [c] := by
  unfold escapeChar
  split
  all_goals first | rfl | exact absurd h (by decide)

theorem escapeChars_of_notMem {s : List Char} (h : ∀ c ∈ s, c ∉ reserved) :
    escapeChars s = s := by
  induction s with
  | nil => rfl
  | cons c rest ih =>
    rw [escapeChars_cons, escapeChar_of_notMem (h c List.mem_cons_self),
      ih fun d hd => h d (List.mem_cons_of_mem c hd)]
    rfl

/-- where nothing is reserved the characters stand for themselves, one by one as well -/
theorem escape_eq (s : String) : escape s = String.ofList (escapeChars s.toList) := by
  unfold escape
  split
  · rfl
  · next hclean =>
    have hnone : ∀ c ∈ s.toList, c ∉ reserved := by
      simpa [List.any_eq_true] using hclean
    rw [escapeChars_of_notMem hnone, String.ofList_toList]

theorem toList_escape (s : String) : (escape s).toList = escapeChars s.toList := by
  rw [escape_eq, String.toList_ofList]

/-! ## comments -/

/-- one more character of a comment; the last character that was written comes first -/
def pushApart (written : List Char) (c : Char) : List Char :=
  if c = '-' ∧ written.head? = some '-' then c :: ' ' :: written else c :: written

def endApart (written : List Char) : List Char :=
  if written.head? = some '-' then ' ' :: written else written

def commentBody (s : String) : String :=
  String.ofList (endApart ((escape s).toList.foldl pushApart [])).reverse

/-! ### looking ahead -/

/-- a space after each hyphen that a hyphen or the end follows -/
def separateHyphens : List Char → List Char
  | [] => []
  | c :: rest =>
    if c = '-' ∧ rest.head?.getD '-' = '-' then c :: ' ' :: separateHyphens rest
    else c :: separateHyphens rest

theorem separateHyphens_nil : separateHyphens [] = [] := rfl

theorem head?_separateHyphens (s : List Char) : (separateHyphens s).head? = s.head? := by
  cases s with
  | nil => rfl
  | cons c rest =>
    unfold separateHyphens
    split <;> rfl

/-- the space that goes between the character written last and what follows -/
def spaceAfter (last : Option Char) (s : List Char) : List Char :=
  if last = some '-' ∧ s.head?.getD '-' = '-' then [' '] else []

theorem separateHyphens_cons (c : Char) (rest : List Char) :
    separateHyphens (c :: rest) = c :: (spaceAfter (some c) rest ++ separateHyphens rest) := by
  rw [separateHyphens, spaceAfter]
  by_cases hc : c = '-' <;> by_cases hmeet : rest.head?.getD '-' = '-' <;> simp [hc, hmeet]

theorem head?_pushApart (written : List Char) (c : Char) :
    (pushApart written c).head? = some c := by
  unfold pushApart
  split <;> rfl

theorem reverse_pushApart (written rest : List Char) (c : Char) :
    (pushApart written c).reverse
      = written.reverse ++ spaceAfter written.head? (c :: rest) ++ [c] := by
  rw [pushApart, spaceAfter]
  by_cases hc : c = '-' <;> by_cases hlast : written.head? = some '-' <;> simp [hc, hlast]

theorem reverse_endApart (written : List Char) :
    (endApart written).reverse = written.reverse ++ spaceAfter written.head? [] := by
  rw [endApart, spaceAfter]
  by_cases hlast : written.head? = some '-' <;> simp [hlast]

/-- the pass leaves what it has written alone, but for the space that may follow it -/
theorem foldl_pushApart (written s : List Char) :
    (endApart (s.foldl pushApart written)).reverse
      = written.reverse ++ (spaceAfter written.head? s ++ separateHyphens s) := by
  induction s generalizing written with
  | nil => rw [List.foldl_nil, reverse_endApart, separateHyphens_nil, List.append_nil]
  | cons c rest ih =>
    rw [List.foldl_cons, ih, head?_pushApart, reverse_pushApart written rest, separateHyphens_cons]
    simp only [List.append_assoc, List.singleton_append]

theorem commentBody_eq (s : String) :
    commentBody s = String.ofList (separateHyphens (escapeChars s.toList)) := by
  rw [commentBody, foldl_pushApart, toList_escape]
  rfl

theorem toList_commentBody (s : String) :
    (commentBody s).toList = separateHyphens (escapeChars s.toList) := by
  rw [commentBody_eq, String.toList_ofList]

end Toolflow.Xml
