import Toolflow.Proofs.Xml.Entities
import Toolflow.Proofs.Xml.Reader

/-!
# The reader on what is written

Each piece of markup that the writer puts together takes the reader from one mode to another, and
the nest changes only where the piece ends a tag or a comment.

* `Mode.Tagged m tag`   in this mode the name and the attributes of `tag` are read, and more
                        attributes or the end of the tag may follow;
* `run_escape`          escaped text is read back raw, in content and in attributes alike;
* `run_separateHyphens` a comment body is read as it is: no two of its hyphens meet and the last
                        one is not at its end, so the comment goes on until its own `-->`;
* `commentText`         what stands in the comment on a text, spelled out apart from the writer;
* `run_startMarkup`, `run_emptyMarkup`, `run_endMarkup`, `run_comment`   whole tags and comments,
                        after some text.
-/

namespace Toolflow.Xml

namespace State
section
variable {leaf : String → Bool} {n : Nest}

/-! ## runs -/

theorem run_append (st : State) (a b : List Char) :
    st.run leaf (a ++ b) = (st.run leaf a).bind fun st => st.run leaf b := by
  induction a generalizing st with
  | nil => rfl
  | cons c rest ih =>
    show (st.step leaf c).bind (fun st => st.run leaf (rest ++ b)) = _
    cases h : st.step leaf c with
    | none => simp [run, h]
    | some st' => simpa [run, h] using ih st'

theorem run_append_of_eq {st st' : State} {a : List Char} (h : st.run leaf a = some st')
    (b : List Char) : st.run leaf (a ++ b) = st'.run leaf b := by
  rw [run_append, h]
  rfl

theorem run_cons_go {m k : Mode} {c : Char} (h : m.step c = Mode.go k) (rest : List Char) :
    State.run leaf ⟨m, n⟩ (c :: rest) = State.run leaf ⟨k, n⟩ rest := by
  have hstep : State.step leaf ⟨m, n⟩ c = some ⟨k, n⟩ := by
    unfold State.step
    rw [h]
    rfl
  rw [run, hstep]
  rfl

theorem run_singleton_event {m k : Mode} {c : Char} {e : Event}
    (h : m.step c = some (k, some e)) :
    State.run leaf ⟨m, n⟩ [c] = (n.add leaf e).map (⟨k, ·⟩) := by
  have hstep : State.step leaf ⟨m, n⟩ c = (n.add leaf e).map (⟨k, ·⟩) := by
    unfold State.step
    rw [h]
  rw [run, hstep]
  cases n.add leaf e <;> rfl

/-- markup ends the text before it -/
theorem run_markup_start (read rest : List Char) :
    State.run leaf ⟨.data .content read, n⟩ ('<' :: rest)
      = State.run leaf ⟨.markup, n.addText leaf (String.ofList read)⟩ rest :=
  rfl

/-- a mode that collects the characters of some kind collects all of them -/
theorem run_collect {collect : List Char → Mode} {P : Char → Prop}
    (h : ∀ read c, P c → (collect read).step c = Mode.go (collect (read ++ [c])))
    (read s : List Char) (hs : ∀ c ∈ s, P c) :
    State.run leaf ⟨collect read, n⟩ s = some ⟨collect (read ++ s), n⟩ := by
  induction s generalizing read with
  | nil => rw [List.append_nil]; rfl
  | cons c rest ih =>
    rw [run_cons_go (h read c (hs c List.mem_cons_self)),
      ih (read ++ [c]) (fun d hd => hs d (List.mem_cons_of_mem _ hd)), List.append_assoc]
    rfl

end
end State

/-! ## names -/

theorem ne_of_isNameChar {c d : Char} (hc : isNameChar c = true) (hd : isNameChar d = false) :
    c ≠ d := by
  intro h
  rw [h, hd] at hc
  exact Bool.noConfusion hc

theorem isBlank_of_isNameChar {c : Char} (hc : isNameChar c = true) : isBlank c = false := by
  have h1 := ne_of_isNameChar hc (d := ' ') (by decide)
  have h2 := ne_of_isNameChar hc (d := '\n') (by decide)
  have h3 := ne_of_isNameChar hc (d := '\t') (by decide)
  have h4 := ne_of_isNameChar hc (d := '\r') (by decide)
  simp [isBlank, h1, h2, h3, h4]

theorem isNameChar_of_isNameStart {c : Char} (hc : isNameStart c = true) :
    isNameChar c = true := by
  simp [isNameChar, hc]

theorem exists_cons_of_isName {s : List Char} (h : isName s = true) :
    ∃ c rest, s = c :: rest ∧ isNameChar c = true ∧ ∀ d ∈ rest, isNameChar d = true := by
  cases s with
  | nil => exact absurd h (by decide)
  | cons c rest =>
    obtain ⟨hc, hrest⟩ := Bool.and_eq_true_iff.mp h
    exact ⟨c, rest, rfl, isNameChar_of_isNameStart hc, List.all_eq_true.mp hrest⟩

/-- a name is checked on its characters, not on the bytes that hold it -/
theorem isName_ofList {s : List Char} (h : isName s = true) :
    isName (String.ofList s).toList = true := by
  rw [String.toList_ofList]
  exact h

theorem name?_of_isName {s : String} (h : isName s.toList = true) : name? s.toList = some s := by
  simp [name?, h]

section
variable {leaf : String → Bool} {n : Nest}

/-! ## text -/

/-- a character that stands for itself wherever it is written -/
theorem step_data {c : Char} (hlt : c ≠ '<') (hamp : c ≠ '&') (hquot : c ≠ '"') (place : Place)
    (read : List Char) : (Mode.data place read).step c = Mode.go (.data place (read ++ [c])) := by
  cases place <;> simp [Mode.step, hlt, hamp, hquot]

theorem run_escapeChar (place : Place) (read : List Char) (c : Char) :
    State.run leaf ⟨.data place read, n⟩ (escapeChar c)
      = some ⟨.data place (read ++ [c]), n⟩ := by
  unfold escapeChar
  split
  · cases place <;> rfl
  · cases place <;> rfl
  · cases place <;> rfl
  · cases place <;> rfl
  · cases place <;> rfl
  · next hlt _ hamp _ hquot => exact State.run_cons_go (step_data hlt hamp hquot place read) []

theorem run_escapeChars (place : Place) (read s : List Char) :
    State.run leaf ⟨.data place read, n⟩ (escapeChars s)
      = some ⟨.data place (read ++ s), n⟩ := by
  induction s generalizing read with
  | nil => rw [List.append_nil]; rfl
  | cons c rest ih =>
    rw [escapeChars_cons, State.run_append_of_eq (run_escapeChar place read c), ih,
      List.append_assoc]
    rfl

/-- what is escaped is read back raw -/
theorem run_escape (place : Place) (read : List Char) (s : String) :
    State.run leaf ⟨.data place read, n⟩ (escape s).toList
      = some ⟨.data place (read ++ s.toList), n⟩ := by
  rw [toList_escape]
  exact run_escapeChars place read s.toList

theorem run_blanks (read s : List Char) (hs : s.all isBlank = true) :
    State.run leaf ⟨.data .content read, n⟩ s = some ⟨.data .content (read ++ s), n⟩ := by
  refine State.run_collect (P := fun c => isBlank c = true) (fun read c hc => ?_) read s
    (List.all_eq_true.mp hs)
  have hne : ∀ d, isBlank d = false → c ≠ d := fun d hd h => by
    rw [h, hd] at hc
    exact Bool.noConfusion hc
  exact step_data (hne '<' (by decide)) (hne '&' (by decide)) (hne '"' (by decide)) .content read

/-! ## tags -/

/-- the name and the attributes of the tag are read, and the tag may end or go on -/
structure Mode.Tagged (m : Mode) (tag : Tag) : Prop where
  blank : m.step ' ' = Mode.go (.gap tag)
  close : m.step '>' = Mode.tell (.startTag tag)

theorem tagged_tagName {name : String} (h : isName name.toList = true) :
    (Mode.tagName name.toList).Tagged ⟨name, []⟩ := by
  constructor
  · simp [Mode.step, name?_of_isName h, isBlank]
  · simp [Mode.step, name?_of_isName h]

theorem tagged_attrEnd (tag : Tag) : (Mode.attrEnd tag).Tagged tag := ⟨rfl, rfl⟩

theorem run_tagName {name : String} (h : isName name.toList = true) :
    State.run leaf ⟨.markup, n⟩ name.toList = some ⟨.tagName name.toList, n⟩ := by
  obtain ⟨c, rest, hname, hc, hrest⟩ := exists_cons_of_isName h
  have hfirst : Mode.markup.step c = Mode.go (.tagName [c]) := by
    simp [Mode.step, ne_of_isNameChar hc (d := '/') (by decide),
      ne_of_isNameChar hc (d := '!') (by decide)]
  have hmore : ∀ read c, isNameChar c = true →
      (Mode.tagName read).step c = Mode.go (.tagName (read ++ [c])) := fun read c hc => by
    simp [Mode.step, ne_of_isNameChar hc (d := '>') (by decide),
      ne_of_isNameChar hc (d := '/') (by decide), isBlank_of_isNameChar hc]
  rw [hname, State.run_cons_go hfirst, State.run_collect hmore [c] rest hrest]
  rfl

theorem run_attrName {name : String} (h : isName name.toList = true) (tag : Tag) :
    State.run leaf ⟨.gap tag, n⟩ name.toList = some ⟨.attrName tag name.toList, n⟩ := by
  obtain ⟨c, rest, hname, hc, hrest⟩ := exists_cons_of_isName h
  have hfirst : (Mode.gap tag).step c = Mode.go (.attrName tag [c]) := by
    simp [Mode.step, ne_of_isNameChar hc (d := '>') (by decide),
      ne_of_isNameChar hc (d := '/') (by decide), isBlank_of_isNameChar hc]
  have hmore : ∀ read c, isNameChar c = true →
      (Mode.attrName tag read).step c = Mode.go (.attrName tag (read ++ [c])) := fun read c hc => by
    simp [Mode.step, ne_of_isNameChar hc (d := '=') (by decide)]
  rw [hname, State.run_cons_go hfirst, State.run_collect hmore [c] rest hrest]
  rfl

theorem run_endName {name : String} (h : isName name.toList = true) :
    State.run leaf ⟨.endName [], n⟩ name.toList = some ⟨.endName name.toList, n⟩ := by
  obtain ⟨c, rest, hname, hc, hrest⟩ := exists_cons_of_isName h
  have hmore : ∀ read c, isNameChar c = true →
      (Mode.endName read).step c = Mode.go (.endName (read ++ [c])) := fun read c hc => by
    simp [Mode.step, ne_of_isNameChar hc (d := '>') (by decide), isBlank_of_isNameChar hc]
  refine State.run_collect hmore [] name.toList fun d hd => ?_
  rw [hname] at hd
  rcases List.mem_cons.mp hd with rfl | hd'
  · exact hc
  · exact hrest d hd'

/-- the attributes have the names of attributes -/
def NamedAttrs (attrs : List Attr) : Prop := ∀ a ∈ attrs, isName a.1.toList = true

@[simp] theorem namedAttrs_nil : NamedAttrs [] := fun _ ha => absurd ha List.not_mem_nil

@[simp] theorem namedAttrs_cons (a : Attr) (rest : List Attr) :
    NamedAttrs (a :: rest) ↔ isName a.1.toList = true ∧ NamedAttrs rest :=
  List.forall_mem_cons

theorem run_attrMarkup {m : Mode} {tag : Tag} (hm : m.Tagged tag) {a : Attr}
    (ha : isName a.1.toList = true) :
    State.run leaf ⟨m, n⟩ (attrMarkup a).toList
      = some ⟨.attrEnd ⟨tag.name, tag.attrs ++ [a]⟩, n⟩ := by
  have hequals : (Mode.attrName tag a.1.toList).step '=' = Mode.go (.equals tag a.1) := by
    simp [Mode.step, name?_of_isName ha]
  have hmarkup : (attrMarkup a).toList
      = ' ' :: (a.1.toList ++ '=' :: '"' :: ((escape a.2).toList ++ ['"'])) := by
    simp [attrMarkup]
  rw [hmarkup, State.run_cons_go hm.blank, State.run_append_of_eq (run_attrName ha tag),
    State.run_cons_go hequals, State.run_cons_go (k := .data (.attribute tag a.1) []) rfl,
    State.run_append_of_eq (run_escape (.attribute tag a.1) [] a.2)]
  simp [State.run, State.step, Mode.step, Mode.go]

variable (leaf n) in
theorem run_attrsMarkup {attrs : List Attr} (hattrs : NamedAttrs attrs) {m : Mode} {tag : Tag}
    (hm : m.Tagged tag) :
    ∃ m' : Mode, m'.Tagged ⟨tag.name, tag.attrs ++ attrs⟩ ∧
      State.run leaf ⟨m, n⟩ (attrsMarkup attrs).toList = some ⟨m', n⟩ := by
  induction attrs generalizing m tag with
  | nil => exact ⟨m, by rw [List.append_nil]; exact hm, by simp [attrsMarkup, State.run]⟩
  | cons a rest ih =>
    obtain ⟨m', hm', hrun⟩ := ih (fun b hb => hattrs b (List.mem_cons_of_mem _ hb))
      (tagged_attrEnd ⟨tag.name, tag.attrs ++ [a]⟩)
    rw [List.append_assoc] at hm'
    refine ⟨m', hm', ?_⟩
    have hcons : (attrsMarkup (a :: rest)).toList
        = (attrMarkup a).toList ++ (attrsMarkup rest).toList := by
      simp [attrsMarkup]
    rw [hcons, State.run_append_of_eq (run_attrMarkup hm (hattrs a List.mem_cons_self)), hrun]

variable (leaf n) in
/-- a tag up to its end; what stands before it is a text -/
theorem run_tag {name : String} (hname : isName name.toList = true) {attrs : List Attr}
    (hattrs : NamedAttrs attrs) (read : List Char) :
    ∃ m : Mode, m.Tagged ⟨name, attrs⟩ ∧
      State.run leaf ⟨.data .content read, n⟩ ("<" ++ name ++ attrsMarkup attrs).toList
        = some ⟨m, n.addText leaf (String.ofList read)⟩ := by
  obtain ⟨m, hm, hrun⟩ := run_attrsMarkup leaf (n.addText leaf (String.ofList read)) hattrs
    (tagged_tagName hname)
  refine ⟨m, hm, ?_⟩
  have htag : ("<" ++ name ++ attrsMarkup attrs).toList
      = '<' :: (name.toList ++ (attrsMarkup attrs).toList) := by
    simp
  rw [htag, State.run_markup_start, State.run_append_of_eq (run_tagName hname), hrun]

theorem run_startMarkup {name : String} (hname : isName name.toList = true) {attrs : List Attr}
    (hattrs : NamedAttrs attrs) (read : List Char) :
    State.run leaf ⟨.data .content read, n⟩ (startMarkup name attrs).toList
      = ((n.addText leaf (String.ofList read)).add leaf (.startTag ⟨name, attrs⟩)).map
        (⟨.data .content [], ·⟩) := by
  obtain ⟨m, hm, hrun⟩ := run_tag leaf n hname hattrs read
  unfold startMarkup
  rw [String.toList_append, State.run_append_of_eq hrun]
  exact State.run_singleton_event hm.close

theorem run_emptyMarkup {name : String} (hname : isName name.toList = true) {attrs : List Attr}
    (hattrs : NamedAttrs attrs) (read : List Char) :
    State.run leaf ⟨.data .content read, n⟩ (emptyMarkup name attrs).toList
      = ((n.addText leaf (String.ofList read)).add leaf (.emptyTag ⟨name, attrs⟩)).map
        (⟨.data .content [], ·⟩) := by
  obtain ⟨m, hm, hrun⟩ := run_tag leaf n hname hattrs read
  unfold emptyMarkup
  rw [String.toList_append, State.run_append_of_eq hrun]
  show State.run leaf ⟨m, n.addText leaf (String.ofList read)⟩ [' ', '/', '>'] = _
  rw [State.run_cons_go hm.blank]
  rfl

theorem run_endMarkup {name : String} (hname : isName name.toList = true) (read : List Char) :
    State.run leaf ⟨.data .content read, n⟩ (endMarkup name).toList
      = ((n.addText leaf (String.ofList read)).add leaf (.endTag name)).map
        (⟨.data .content [], ·⟩) := by
  have hclose : (Mode.endName name.toList).step '>' = Mode.tell (.endTag name) := by
    simp [Mode.step, name?_of_isName hname]
  have hmarkup : (endMarkup name).toList = '<' :: '/' :: (name.toList ++ ['>']) := by
    simp [endMarkup]
  rw [hmarkup, State.run_markup_start, State.run_cons_go (k := .endName []) rfl,
    State.run_append_of_eq (run_endName hname)]
  exact State.run_singleton_event hclose

/-! ## comments -/

theorem step_comment {c : Char} (hc : c ≠ '-') (read : List Char) :
    (Mode.comment read).step c = Mode.go (.comment (read ++ [c])) := by
  simp [Mode.step, hc]

/-- a character after a hyphen is read like any other, unless it is a hyphen -/
theorem step_commentHyphen {c : Char} (hc : c ≠ '-') (read : List Char) :
    (Mode.commentHyphen read).step c = (Mode.comment (read ++ ['-'])).step c := by
  simp [Mode.step, hc]

theorem run_commentHyphen {s : List Char} (hs : s.head?.getD '-' ≠ '-') (read : List Char) :
    State.run leaf ⟨.commentHyphen read, n⟩ s
      = State.run leaf ⟨.comment (read ++ ['-']), n⟩ s := by
  cases s with
  | nil => exact absurd rfl hs
  | cons c rest =>
    have hc : c ≠ '-' := hs
    rw [State.run, State.run, State.step, State.step, step_commentHyphen hc]

theorem run_separateHyphens (read s : List Char) :
    State.run leaf ⟨.comment read, n⟩ (separateHyphens s)
      = some ⟨.comment (read ++ separateHyphens s), n⟩ := by
  induction s generalizing read with
  | nil => rw [separateHyphens_nil, List.append_nil]; rfl
  | cons c rest ih =>
    unfold separateHyphens
    by_cases hc : c = '-'
    · subst hc
      by_cases hnext : rest.head?.getD '-' = '-'
      · rw [if_pos ⟨rfl, hnext⟩, State.run_cons_go (k := .commentHyphen read) rfl,
          State.run_cons_go (k := .comment (read ++ ['-', ' '])) rfl, ih, List.append_assoc]
        rfl
      · rw [if_neg (fun h => hnext h.2), State.run_cons_go (k := .commentHyphen read) rfl,
          run_commentHyphen (by rw [head?_separateHyphens]; exact hnext), ih, List.append_assoc]
        rfl
    · rw [if_neg (fun h => hc h.1), State.run_cons_go (step_comment hc read), ih,
        List.append_assoc]
      rfl

/-- a space behind a hyphen where another hyphen, or nothing, comes next -/
def hyphensApart : List Char → List Char
  | [] => []
  | ['-'] => ['-', ' ']
  | '-' :: rest@('-' :: _) => '-' :: ' ' :: hyphensApart rest
  | c :: rest => c :: hyphensApart rest

theorem hyphensApart_eq (s : List Char) : hyphensApart s = separateHyphens s := by
  fun_induction hyphensApart s with
  | case1 => rfl
  | case2 => rfl
  | case3 rest ih =>
    rw [ih]
    exact (if_pos ⟨rfl, rfl⟩).symm
  | case4 c rest hend hmeet ih =>
    have hapart : ¬ (c = '-' ∧ rest.head?.getD '-' = '-') := by
      rintro ⟨hc, hnext⟩
      cases rest with
      | nil => exact hend hc rfl
      | cons d rest => exact hmeet rest hc (congrArg (· :: rest) hnext)
    rw [ih, separateHyphens, if_neg hapart]

/-- the body of the comment on a text -/
def commentText (s : String) : String :=
  " " ++ String.ofList (hyphensApart (withEntities s.toList)) ++ " "

theorem commentText_eq (s : String) : commentText s = " " ++ commentBody s ++ " " := by
  rw [commentText, withEntities_eq, hyphensApart_eq, commentBody_eq]

theorem run_comment (s : String) (read : List Char) :
    State.run leaf ⟨.data .content read, n⟩ (Step.comment s).markup.toList
      = ((n.addText leaf (String.ofList read)).add leaf (.comment (commentText s))).map
        (⟨.data .content [], ·⟩) := by
  have hmarkup : (Step.comment s).markup.toList
      = '<' :: '!' :: '-' :: '-' :: ' ' :: (separateHyphens (escapeChars s.toList)
        ++ [' ', '-', '-', '>']) := by
    simp [Step.markup, toList_commentBody]
  have hbody : commentText s
      = String.ofList ([' '] ++ separateHyphens (escapeChars s.toList) ++ [' ']) := by
    rw [commentText_eq, commentBody_eq, String.ofList_append, String.ofList_append]
  rw [hmarkup, State.run_markup_start, State.run_cons_go (k := .bang) rfl,
    State.run_cons_go (k := .bangHyphen) rfl, State.run_cons_go (k := .comment []) rfl,
    State.run_cons_go (k := .comment [' ']) rfl,
    State.run_append_of_eq (run_separateHyphens [' '] _), hbody]
  rfl

end

end Toolflow.Xml
