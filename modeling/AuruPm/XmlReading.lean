import AuruPm.ProjectSource

/-!
# Reading what was written

The XML writer joins what stood apart and escapes what the reader takes as it stands: what becomes
of a tree that is written and read again, and which trees stay as they are.
-/

namespace AuruPm

set_option autoImplicit false

open SortedAssoc

/-! Escaping. -/

def escapeChar (c : Char) : List Char :=
  if c = '<' then "&lt;".toList
  else if c = '>' then "&gt;".toList
  else if c = '\'' then "&apos;".toList
  else if c = '&' then "&amp;".toList
  else if c = '"' then "&quot;".toList
  else [c]

/-- `quick_xml::escape::escape` -/
def escape (text : String) : String := String.ofList (text.toList.flatMap escapeChar)

/-- Whether escaping leaves a text alone. -/
def isPlain (text : String) : Bool :=
  text.toList.all fun c => c ∉ ['<', '>', '\'', '&', '"']

theorem escapeChar_of_plain {c : Char} (h : c ∉ ['<', '>', '\'', '&', '"']) :
    escapeChar c = [c] := by
  simp only [List.mem_cons, List.not_mem_nil, or_false, not_or] at h
  obtain ⟨h1, h2, h3, h4, h5⟩ := h
  rw [escapeChar, if_neg h1, if_neg h2, if_neg h3, if_neg h4, if_neg h5]

theorem length_escapeChar (c : Char) : 1 ≤ (escapeChar c).length := by
  unfold escapeChar
  split_ifs <;> exact Nat.le_add_left 1 _

theorem plain_of_length {c : Char} (h : (escapeChar c).length = 1) :
    c ∉ ['<', '>', '\'', '&', '"'] := by
  intro hc
  simp only [List.mem_cons, List.not_mem_nil, or_false] at hc
  rcases hc with rfl | rfl | rfl | rfl | rfl <;> exact absurd h (by decide)

theorem length_flatMap_escapeChar (cs : List Char) :
    cs.length ≤ (cs.flatMap escapeChar).length := by
  induction cs with
  | nil => exact Nat.le_refl 0
  | cons c cs ih =>
    have hhead := length_escapeChar c
    simp only [List.flatMap_cons, List.length_append, List.length_cons]
    omega

theorem flatMap_escapeChar_eq_iff (cs : List Char) :
    cs.flatMap escapeChar = cs ↔ ∀ c ∈ cs, c ∉ ['<', '>', '\'', '&', '"'] := by
  constructor
  · intro h
    induction cs with
    | nil => exact fun c hc => absurd hc List.not_mem_nil
    | cons c cs ih =>
      have hlength := congrArg List.length h
      have hhead := length_escapeChar c
      have htail := length_flatMap_escapeChar cs
      simp only [List.flatMap_cons, List.length_append, List.length_cons] at hlength
      have hplain := plain_of_length (c := c) (by omega)
      rw [List.flatMap_cons, escapeChar_of_plain hplain] at h
      exact List.forall_mem_cons.mpr ⟨hplain, ih (List.cons.inj h).2⟩
  · intro h
    induction cs with
    | nil => rfl
    | cons c cs ih =>
      obtain ⟨hhead, htail⟩ := List.forall_mem_cons.mp h
      rw [List.flatMap_cons, escapeChar_of_plain hhead, ih htail]
      rfl

theorem escape_eq_iff (text : String) : escape text = text ↔ isPlain text = true := by
  have htext : text = String.ofList text.toList := String.ofList_toList.symm
  rw [escape, isPlain, List.all_eq_true]
  simp only [decide_eq_true_eq]
  rw [← flatMap_escapeChar_eq_iff]
  constructor
  · intro h
    rw [htext, String.ofList_inj] at h
    simpa using h
  · intro h
    rw [h, ← htext]

/-! What the reader is given. -/

def readAttributes (attributes : List (String × String)) : List (Except String ReadAttribute) :=
  attributes.map fun entry => .ok ⟨.ok entry.1, .ok entry.2⟩

/-- Adjacent texts arrive as one. -/
def joinEvent (text : String) : List ReadEvent → List ReadEvent
  | .text (.ok following) :: rest => .text (.ok (text ++ following)) :: rest
  | rest => .text (.ok text) :: rest

/-- What is read of what was written, one event after another. A comment is written escaped and
read as it stands. -/
def delivered : List XmlEvent → List ReadEvent
  | [] => []
  | .decl :: rest => .other :: delivered rest
  | .empty tag attributes :: rest => .empty (.ok tag) (readAttributes attributes) :: delivered rest
  | .start tag attributes :: rest => .start (.ok tag) (readAttributes attributes) :: delivered rest
  | .text text :: rest => joinEvent text (delivered rest)
  | .cdata cdata :: rest => .cdata (.ok cdata) :: delivered rest
  | .comment comment :: rest => .comment (.ok (escape comment)) :: delivered rest
  | .close _ :: rest => .close :: delivered rest

/-! What is made of it. -/

def joinContent (text : String) : List XmlContent → List XmlContent
  | .text following :: rest => .text (text ++ following) :: rest
  | rest => .text text :: rest

mutual
/-- The tree that is read of a tree that was written. -/
def XmlElement.reread : XmlElement → XmlElement
  | .mk tag id attributes children => .mk tag id attributes (rereadContents children)
def rereadContents : List XmlContent → List XmlContent
  | [] => []
  | .element element :: rest => .element element.reread :: rereadContents rest
  | .text text :: rest => joinContent text (rereadContents rest)
  | .cdata cdata :: rest => .cdata cdata :: rereadContents rest
  | .comment comment :: rest => .comment (escape comment) :: rereadContents rest
end

def startsWithText : List XmlContent → Bool
  | .text _ :: _ => true
  | _ => false

mutual
/-- Nothing in a comment is escaped, and no text stands next to another. -/
def XmlElement.Settled : XmlElement → Prop
  | .mk _ _ _ children => ContentsSettled children
def ContentsSettled : List XmlContent → Prop
  | [] => True
  | .element element :: rest => element.Settled ∧ ContentsSettled rest
  | .text _ :: rest => startsWithText rest = false ∧ ContentsSettled rest
  | .cdata _ :: rest => ContentsSettled rest
  | .comment comment :: rest => isPlain comment = true ∧ ContentsSettled rest
end

theorem joinContent_of_not_text {contents : List XmlContent} (h : startsWithText contents = false)
    (text : String) : joinContent text contents = .text text :: contents := by
  cases contents with
  | nil => rfl
  | cons content rest =>
    cases content with
    | text following => cases h
    | _ => rfl

theorem length_joinContent (text : String) (contents : List XmlContent) :
    (joinContent text contents).length ≤ contents.length + 1 := by
  by_cases h : startsWithText contents = true
  · cases contents with
    | nil => cases h
    | cons content rest =>
      cases content with
      | text following => exact Nat.le_succ _
      | _ => cases h
  · rw [joinContent_of_not_text (Bool.eq_false_iff.mpr h)]
    exact Nat.le_refl _

theorem length_rereadContents (contents : List XmlContent) :
    (rereadContents contents).length ≤ contents.length := by
  induction contents with
  | nil => exact Nat.le_refl 0
  | cons content rest ih =>
    cases content with
    | text text =>
      rw [rereadContents]
      exact Nat.le_trans (length_joinContent text _) (Nat.succ_le_succ ih)
    | element _ | cdata _ | comment _ =>
      rw [rereadContents]
      exact Nat.succ_le_succ ih

/-- A text is only joined to one before it. -/
theorem joinContent_eq_iff {text : String} {contents rest : List XmlContent}
    (h : contents.length ≤ rest.length) :
    joinContent text contents = .text text :: rest ↔
      contents = rest ∧ startsWithText rest = false := by
  by_cases htext : startsWithText contents = true
  · have hshort : (joinContent text contents).length ≤ rest.length := by
      cases contents with
      | nil => cases htext
      | cons content others =>
        cases content with
        | text following => exact h
        | _ => cases htext
    constructor
    · intro heq
      rw [heq, List.length_cons] at hshort
      omega
    · rintro ⟨rfl, hno⟩
      rw [htext] at hno
      cases hno
  · rw [joinContent_of_not_text (Bool.eq_false_iff.mpr htext), List.cons.injEq]
    constructor
    · rintro ⟨_, rfl⟩
      exact ⟨rfl, Bool.eq_false_iff.mpr htext⟩
    · rintro ⟨rfl, _⟩
      exact ⟨rfl, rfl⟩

mutual
/-- The trees that stay as they are. -/
theorem reread_eq_iff : (e : XmlElement) → (e.reread = e ↔ e.Settled)
  | .mk tag id attributes children => by
    rw [XmlElement.reread, XmlElement.Settled, ← rereadContents_eq_iff children]
    simp
theorem rereadContents_eq_iff : (contents : List XmlContent) →
    (rereadContents contents = contents ↔ ContentsSettled contents)
  | [] => by simp [rereadContents, ContentsSettled]
  | .element e :: rest => by
    rw [rereadContents, ContentsSettled, ← reread_eq_iff e, ← rereadContents_eq_iff rest]
    simp
  | .text text :: rest => by
    rw [rereadContents, ContentsSettled, joinContent_eq_iff (length_rereadContents rest),
      rereadContents_eq_iff rest, and_comm]
  | .cdata cdata :: rest => by
    rw [rereadContents, ContentsSettled, ← rereadContents_eq_iff rest]
    simp
  | .comment comment :: rest => by
    rw [rereadContents, ContentsSettled, ← rereadContents_eq_iff rest, ← escape_eq_iff]
    simp
end

/-! The events of a tree. -/

mutual
/-- How the reader is given a tree. -/
def XmlElement.reading : XmlElement → List ReadEvent
  | .mk tag _ attributes children =>
    if children.isEmpty then [.empty (.ok tag) (readAttributes attributes)]
    else .start (.ok tag) (readAttributes attributes) :: (contentsReading children ++ [.close])
def contentsReading : List XmlContent → List ReadEvent
  | [] => []
  | .element element :: rest => element.reading ++ contentsReading rest
  | .text text :: rest => .text (.ok text) :: contentsReading rest
  | .cdata cdata :: rest => .cdata (.ok cdata) :: contentsReading rest
  | .comment comment :: rest => .comment (.ok comment) :: contentsReading rest
end

/-- Whether a text before these would be joined to them. -/
def joins : List ReadEvent → Bool
  | .text _ :: _ => true
  | _ => false

theorem joinEvent_of_not_joins {events : List ReadEvent} (h : joins events = false)
    (text : String) : joinEvent text events = .text (.ok text) :: events := by
  cases events with
  | nil => rfl
  | cons event rest =>
    cases event with
    | text unescaped => cases h
    | _ => rfl

theorem joins_reading (e : XmlElement) (rest : List ReadEvent) :
    joins (e.reading ++ rest) = false := by
  obtain ⟨tag, id, attributes, children⟩ := e
  rw [XmlElement.reading]
  split <;> rfl

theorem joinEvent_contentsReading {rest : List ReadEvent} (h : joins rest = false) (text : String)
    (contents : List XmlContent) :
    joinEvent text (contentsReading contents ++ rest) =
      contentsReading (joinContent text contents) ++ rest := by
  cases contents with
  | nil => exact joinEvent_of_not_joins h text
  | cons content others =>
    cases content with
    | element e =>
      rw [joinContent_of_not_text rfl, contentsReading, contentsReading, contentsReading,
        List.append_assoc, joinEvent_of_not_joins (joins_reading e _), List.cons_append,
        List.append_assoc]
    | _ => rfl

theorem rereadContents_isEmpty (contents : List XmlContent) :
    (rereadContents contents).isEmpty = contents.isEmpty := by
  cases contents with
  | nil => rfl
  | cons content rest =>
    cases content with
    | text text =>
      rw [rereadContents]
      cases rereadContents rest with
      | nil => rfl
      | cons following others => cases following <;> rfl
    | _ => rfl

mutual
/-- What was written of a tree is read as the tree that is read of it. -/
theorem delivered_events : (e : XmlElement) → (rest : List XmlEvent) →
    delivered (e.events ++ rest) = e.reread.reading ++ delivered rest
  | .mk tag id attributes children, rest => by
    rw [XmlElement.events, XmlElement.reread, XmlElement.reading, rereadContents_isEmpty]
    split
    · rfl
    · have hclose : joins (delivered (.close tag :: rest)) = false := rfl
      rw [List.cons_append, List.append_assoc, delivered, List.singleton_append,
        delivered_contents children (.close tag :: rest) hclose, delivered, List.cons_append,
        List.append_assoc, List.singleton_append]
theorem delivered_contents : (contents : List XmlContent) → (rest : List XmlEvent) →
    joins (delivered rest) = false →
      delivered (contentEvents contents ++ rest) =
        contentsReading (rereadContents contents) ++ delivered rest
  | [], _, _ => rfl
  | .element e :: others, rest, h => by
    rw [contentEvents, List.append_assoc, delivered_events e, delivered_contents others rest h,
      rereadContents, contentsReading, List.append_assoc]
  | .text text :: others, rest, h => by
    rw [contentEvents, List.cons_append, delivered, delivered_contents others rest h,
      rereadContents, joinEvent_contentsReading h]
  | .cdata cdata :: others, rest, h => by
    rw [contentEvents, List.cons_append, delivered, delivered_contents others rest h]
    rfl
  | .comment comment :: others, rest, h => by
    rw [contentEvents, List.cons_append, delivered, delivered_contents others rest h]
    rfl
end

end AuruPm
