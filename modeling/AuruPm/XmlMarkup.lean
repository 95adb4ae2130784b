import AuruPm.XmlParse

/-!
# Markup that stays

Whether the tree of a document stays as it is when it is written and read, and whether its JSON
nests too deeply to be parsed, can be told from the document's markup, event by event.
-/

namespace AuruPm

set_option autoImplicit false

open SortedAssoc

/-! Depth. -/

/-- The depth of the JSON of a content. -/
def XmlContent.level : XmlContent → Nat
  | .element e => e.toValue.depth
  | _ => 1

theorem depth_contentValues_le_iff {contents : List XmlContent} {n : Nat} :
    (∀ v ∈ contentValues contents, v.depth ≤ n) ↔ ∀ content ∈ contents, content.level ≤ n := by
  have hleaf : ∀ name s : String, (structValue [(name, .string s)]).depth = 1 := fun _ _ => rfl
  induction contents with
  | nil => simp [contentValues]
  | cons content rest ih =>
    cases content <;> simp [contentValues, XmlContent.level, hleaf, ih]

theorem depth_stringMapValue_eq (attributes : List (String × String)) :
    (stringMapValue attributes).depth = 1 := by
  apply Nat.le_antisymm (depth_stringMapValue attributes)
  rw [stringMapValue, Value.depth]
  exact Nat.le_add_left 1 _

theorem depth_element_le_iff {tag : String} {id : Option String}
    {attributes : List (String × String)} {children : List XmlContent} {n : Nat} :
    (XmlElement.mk tag id attributes children).toValue.depth ≤ n + 1 ↔
      (attributes ≠ [] → 1 ≤ n) ∧ (children ≠ [] → 1 ≤ n) ∧
        ∀ content ∈ children, content.level + 1 ≤ n := by
  rw [XmlElement.toValue]
  constructor
  · intro h
    rw [structValue, Value.depth_object_le_iff] at h
    have hfield : ∀ key v, get? (([("tag", Value.string tag)] ++ skipNone "id" .string id ++
        skipEmpty "attributes" stringMapValue attributes ++
        (if children.isEmpty then [] else [("children", Value.array (contentValues children))])).foldl
          (fun m f => SortedAssoc.insert f.1 f.2 m) []) key = some v → v.depth ≤ n :=
      fun key v hv => h (key, v) (mem_of_get? hv)
    have hattributes : attributes ≠ [] → (stringMapValue attributes).depth ≤ n := by
      intro hne
      apply hfield "attributes"
      cases id <;> cases children <;> simp [skipNone, skipEmpty, get?_insert, hne]
    have hchildren : children ≠ [] → (Value.array (contentValues children)).depth ≤ n := by
      intro hne
      apply hfield "children"
      cases id <;> cases attributes <;> simp [skipNone, skipEmpty, get?_insert, hne]
    have hone : children ≠ [] → 1 ≤ n := by
      intro hne
      have hdepth := hchildren hne
      rw [Value.depth] at hdepth
      omega
    refine ⟨fun hne => ?_, hone, fun content hcontent => ?_⟩
    · rw [← depth_stringMapValue_eq attributes]
      exact hattributes hne
    · have hne := List.ne_nil_of_mem hcontent
      obtain ⟨m, rfl⟩ : ∃ m, n = m + 1 := ⟨n - 1, by have := hone hne; omega⟩
      have hdepth := Value.depth_array_le_iff.mp (hchildren hne)
      exact Nat.succ_le_succ (depth_contentValues_le_iff.mp hdepth content hcontent)
  · rintro ⟨hattributes, hone, hcontents⟩
    apply depth_structValue_le
    intro e he
    simp only [List.mem_append] at he
    rcases he with ((he | he) | he) | he
    · obtain rfl := List.mem_singleton.mp he
      exact Nat.zero_le n
    · have hstring : ∀ s ∈ id, (Value.string s).depth ≤ n := fun _ _ => Nat.zero_le n
      exact forall_skipNone (P := fun v => v.depth ≤ n) hstring e he
    · by_cases hne : attributes = []
      · subst hne
        cases he
      · refine forall_skipEmpty stringMapValue (P := fun v => v.depth ≤ n) ?_ e he
        exact Nat.le_trans (depth_stringMapValue attributes) (hattributes hne)
    · split at he
      · cases he
      · rename_i hne
        obtain rfl := List.mem_singleton.mp he
        have hn := hone fun hnil => hne (by rw [hnil]; rfl)
        obtain ⟨m, rfl⟩ : ∃ m, n = m + 1 := ⟨n - 1, by omega⟩
        apply Value.depth_array_le_iff.mpr
        apply depth_contentValues_le_iff.mpr
        exact fun content hcontent => Nat.le_of_succ_le_succ (hcontents content hcontent)

theorem depth_element_pos (e : XmlElement) : 1 ≤ e.toValue.depth := by
  obtain ⟨tag, id, attributes, children⟩ := e
  rw [XmlElement.toValue, structValue, Value.depth]
  exact Nat.le_add_left 1 _

/-- An element with one more content. -/
theorem depth_push_le_iff (e : XmlElement) (content : XmlContent) (n : Nat) :
    (e.push content).toValue.depth ≤ n ↔ e.toValue.depth ≤ n ∧ content.level + 2 ≤ n := by
  cases n with
  | zero =>
    have hpush := depth_element_pos (e.push content)
    omega
  | succ n =>
    obtain ⟨tag, id, attributes, children⟩ := e
    rw [XmlElement.push, depth_element_le_iff, depth_element_le_iff, List.forall_mem_append,
      List.forall_mem_singleton]
    constructor
    · rintro ⟨hattributes, hone, hchildren, hcontent⟩
      exact ⟨⟨hattributes, fun _ => hone (by simp), hchildren⟩, Nat.succ_le_succ hcontent⟩
    · rintro ⟨⟨hattributes, hone, hchildren⟩, hcontent⟩
      exact ⟨hattributes, fun _ => by omega, hchildren, by omega⟩

/-! Contents that settle. -/

def endsWithText (contents : List XmlContent) : Bool :=
  match contents.getLast? with
  | some (.text _) => true
  | _ => false

def XmlElement.endsWithText : XmlElement → Bool
  | .mk _ _ _ children => AuruPm.endsWithText children

/-- Whether a content settles after others, by whether the last of them is a text. -/
def XmlContent.SettledAfter (afterText : Bool) : XmlContent → Prop
  | .element e => e.Settled
  | .text _ => afterText = false
  | .cdata _ => True
  | .comment s => isPlain s = true

theorem contentsSettled_cons (content : XmlContent) (rest : List XmlContent) :
    ContentsSettled (content :: rest) ↔
      content.SettledAfter false ∧ (startsWithText [content] = true → startsWithText rest = false) ∧
        ContentsSettled rest := by
  cases content <;> simp [ContentsSettled, XmlContent.SettledAfter, startsWithText]

theorem settledAfter_iff (afterText : Bool) (content : XmlContent) :
    content.SettledAfter afterText ↔
      content.SettledAfter false ∧ (afterText = true → startsWithText [content] = false) := by
  cases content <;> simp [XmlContent.SettledAfter, startsWithText]

theorem contentsSettled_append (contents : List XmlContent) (content : XmlContent) :
    ContentsSettled (contents ++ [content]) ↔
      ContentsSettled contents ∧ content.SettledAfter (endsWithText contents) := by
  induction contents with
  | nil =>
    rw [List.nil_append, contentsSettled_cons]
    simp [ContentsSettled, startsWithText, endsWithText]
  | cons first rest ih =>
    rw [List.cons_append, contentsSettled_cons, contentsSettled_cons, ih]
    cases rest with
    | nil =>
      have hends : endsWithText [first] = startsWithText [first] := by cases first <;> rfl
      rw [hends, settledAfter_iff (startsWithText [first])]
      simp [ContentsSettled, startsWithText, endsWithText]
      tauto
    | cons second rest =>
      have hends : endsWithText (first :: second :: rest) = endsWithText (second :: rest) := by
        simp [endsWithText, List.getLast?_cons_cons]
      have hstarts : startsWithText (second :: rest ++ [content]) =
          startsWithText (second :: rest) := by
        cases second <;> rfl
      rw [hends, hstarts]
      tauto

theorem settled_push (e : XmlElement) (content : XmlContent) :
    (e.push content).Settled ↔ e.Settled ∧ content.SettledAfter e.endsWithText := by
  obtain ⟨tag, id, attributes, children⟩ := e
  exact contentsSettled_append children content

theorem endsWithText_push (e : XmlElement) (content : XmlContent) :
    (e.push content).endsWithText = startsWithText [content] := by
  obtain ⟨tag, id, attributes, children⟩ := e
  rw [XmlElement.push, XmlElement.endsWithText, endsWithText, List.getLast?_concat]
  cases content <;> rfl

/-! Markup. -/

/-- How many elements are open, and whether the innermost ends with a text so far. -/
structure Place where
  depth : Nat
  afterText : Bool

def ReadEvent.next (p : Place) : ReadEvent → Place
  | .start _ _ => ⟨p.depth + 1, false⟩
  | .empty _ _ => ⟨p.depth, false⟩
  | .close => ⟨p.depth - 1, false⟩
  | .text (.ok s) => if isBlank s then p else ⟨p.depth, true⟩
  | .cdata _ => ⟨p.depth, false⟩
  | .comment _ => ⟨p.depth, false⟩
  | _ => p

/-- What stays as it is: a comment without characters that are escaped, a text that is not parted
from the one before it by markup that is dropped, and nothing nested too deeply. -/
def ReadEvent.stays (limit : Nat) (p : Place) : ReadEvent → Bool
  | .start _ attributes | .empty _ attributes =>
    2 * p.depth + 3 + (if attributes.isEmpty then 0 else 1) ≤ limit
  | .text (.ok s) => isBlank s || (!p.afterText && decide (2 * p.depth + 3 ≤ limit))
  | .cdata _ => 2 * p.depth + 3 ≤ limit
  | .comment (.ok s) =>
    p.depth = 0 || (isPlain s && decide (2 * p.depth + 3 ≤ limit))
  | _ => true

def markupStays (limit : Nat) : List ReadEvent → Place → Bool
  | [], _ => true
  | event :: rest, p => event.stays limit p && markupStays limit rest (event.next p)

def ParseState.place (s : ParseState) : Place :=
  ⟨s.stack.length, match s.stack with
    | [] => false
    | e :: _ => e.endsWithText⟩

/-- An element at a level of its document that stays and is not nested too deeply. -/
def XmlElement.Stays (limit level : Nat) (e : XmlElement) : Prop :=
  e.Settled ∧ e.toValue.depth + (2 * level + 2) ≤ limit

def StackStays (limit : Nat) : List XmlElement → Prop
  | [] => True
  | e :: stack => e.Stays limit stack.length ∧ StackStays limit stack

def ParseState.Stays (limit : Nat) (s : ParseState) : Prop :=
  StackStays limit s.stack ∧ ∀ e ∈ s.root, e.Stays limit 0

section Parse
variable {label : String} (limit : Nat)

theorem stays_push {e : XmlElement} {content : XmlContent} {level : Nat} :
    (e.push content).Stays limit level ↔
      e.Stays limit level ∧ content.SettledAfter e.endsWithText ∧
        content.level + 2 + (2 * level + 2) ≤ limit := by
  have hdepth := depth_push_le_iff e content (limit - (2 * level + 2))
  have hpush := depth_element_pos (e.push content)
  have he := depth_element_pos e
  unfold XmlElement.Stays
  rw [settled_push]
  constructor
  · rintro ⟨⟨hsettled, hafter⟩, hlimit⟩
    obtain ⟨hold, hnew⟩ := hdepth.mp (by omega)
    exact ⟨⟨hsettled, by omega⟩, hafter, by omega⟩
  · rintro ⟨⟨hsettled, hold⟩, hafter, hnew⟩
    have := hdepth.mpr ⟨by omega, by omega⟩
    exact ⟨⟨hsettled, hafter⟩, by omega⟩

theorem stays_appendElement {e : XmlElement} {s s' : ParseState}
    (h : appendElement e s = .ok s') :
    s'.place = ⟨s.stack.length, false⟩ ∧
      (s'.Stays limit ↔ s.Stays limit ∧ e.Stays limit s.stack.length) := by
  obtain ⟨stack, root⟩ := s
  cases stack with
  | cons parent stack =>
    obtain rfl := Except.ok.inj h
    constructor
    · simp only [ParseState.place, endsWithText_push, List.length_cons]
      rfl
    · simp only [ParseState.Stays, StackStays, stays_push, XmlContent.SettledAfter,
        XmlContent.level, List.length_cons]
      rw [XmlElement.Stays, XmlElement.Stays]
      have hlevel : e.toValue.depth + 2 + (2 * stack.length + 2) =
          e.toValue.depth + (2 * (stack.length + 1) + 2) := by omega
      rw [hlevel]
      tauto
  | nil =>
    cases root with
    | none =>
      obtain rfl := Except.ok.inj h
      refine ⟨rfl, ?_⟩
      simp [ParseState.Stays, StackStays]
    | some root => cases h

theorem stays_appendContent {content : XmlContent} {s s' : ParseState} (hleaf : content.level = 1)
    (h : appendContent label content s = .ok s') :
    s'.place = ⟨s.place.depth, startsWithText [content]⟩ ∧ s.place.depth ≠ 0 ∧
      (s'.Stays limit ↔ s.Stays limit ∧ content.SettledAfter s.place.afterText ∧
        2 * s.place.depth + 3 ≤ limit) := by
  obtain ⟨stack, root⟩ := s
  cases stack with
  | cons parent stack =>
    obtain rfl := Except.ok.inj h
    refine ⟨?_, Nat.succ_ne_zero _, ?_⟩
    · simp only [ParseState.place, endsWithText_push, List.length_cons]
    · simp only [ParseState.Stays, StackStays, stays_push, hleaf, ParseState.place,
        List.length_cons]
      have hlevel : 1 + 2 + (2 * stack.length + 2) = 2 * (stack.length + 1) + 3 := by omega
      rw [hlevel]
      tauto
  | nil => cases h

theorem collectAttributes_eq_nil_iff {tag : String} {read : List (Except String ReadAttribute)}
    {seen attributes : List (String × String)}
    (h : collectAttributes tag read seen = .ok attributes) :
    attributes = [] ↔ read = [] ∧ seen = [] := by
  induction read generalizing seen with
  | nil =>
    obtain rfl := Except.ok.inj h
    simp
  | cons entry rest ih =>
    obtain ⟨entry, _, h⟩ := bind_ok_iff.mp h
    obtain ⟨key, _, h⟩ := bind_ok_iff.mp h
    obtain ⟨value, _, h⟩ := bind_ok_iff.mp h
    split at h
    · cases h
    · rw [ih h]
      constructor
      · rintro ⟨_, hnil⟩
        exact absurd (mem_insert_self key value seen) (by rw [hnil]; exact List.not_mem_nil)
      · rintro ⟨hnil, _⟩
        cases hnil

theorem stays_fromStart {name : Except String String} {read : List (Except String ReadAttribute)}
    {e : XmlElement} (h : XmlElement.fromStart name read = .ok e) (level : Nat) :
    e.endsWithText = false ∧
      (e.Stays limit level ↔ 2 * level + 3 + (if read.isEmpty then 0 else 1) ≤ limit) := by
  obtain ⟨tag, _, h⟩ := bind_ok_iff.mp h
  obtain ⟨attributes, hattributes, h⟩ := bind_ok_iff.mp h
  have hnil := collectAttributes_eq_nil_iff hattributes
  obtain rfl := Except.ok.inj h
  refine ⟨rfl, ?_⟩
  have hdepth : ∀ n, (XmlElement.mk tag (attributeId attributes) attributes []).toValue.depth ≤ n + 1 ↔
      (read ≠ [] → 1 ≤ n) := by
    intro n
    rw [depth_element_le_iff]
    simp [hnil]
  have hsettled : (XmlElement.mk tag (attributeId attributes) attributes []).Settled := trivial
  have hpos := depth_element_pos (.mk tag (attributeId attributes) attributes [])
  have hn := hdepth (limit - (2 * level + 3))
  rw [XmlElement.Stays]
  by_cases hread : read = []
  · subst hread
    simp only [hsettled, true_and, List.isEmpty_nil, if_true]
    simp only [ne_eq, not_true_eq_false, false_implies, iff_true] at hn
    omega
  · have hempty : read.isEmpty = false := by simpa using hread
    simp only [hsettled, true_and, hempty, Bool.false_eq_true, if_false]
    simp only [ne_eq, hread, not_false_eq_true, true_implies] at hn
    omega

/-- One event: where it leads, and whether what is parsed so far stays. -/
theorem stays_parseEvent {event : ReadEvent} {s s' : ParseState}
    (h : parseEvent label event s = .ok s') :
    s'.place = event.next s.place ∧
      (s'.Stays limit ↔ s.Stays limit ∧ event.stays limit s.place = true) := by
  cases event with
  | start name attributes =>
    obtain ⟨e, he, h⟩ := bind_ok_iff.mp h
    obtain rfl := Except.ok.inj h
    obtain ⟨hends, hstays⟩ := stays_fromStart limit he s.stack.length
    constructor
    · simp only [ParseState.place, hends, List.length_cons]
      rfl
    · have hevent : (ReadEvent.start name attributes).stays limit s.place = true ↔
          2 * s.stack.length + 3 + (if attributes.isEmpty then 0 else 1) ≤ limit :=
        decide_eq_true_iff
      rw [hevent, ← hstays]
      simp only [ParseState.Stays, StackStays]
      tauto
  | empty name attributes =>
    obtain ⟨e, he, h⟩ := bind_ok_iff.mp h
    obtain ⟨_, hstays⟩ := stays_fromStart limit he s.stack.length
    obtain ⟨hplace, happend⟩ := stays_appendElement limit h
    refine ⟨hplace, ?_⟩
    have hevent : (ReadEvent.empty name attributes).stays limit s.place = true ↔
        2 * s.stack.length + 3 + (if attributes.isEmpty then 0 else 1) ≤ limit :=
      decide_eq_true_iff
    rw [happend, hstays, hevent]
  | close =>
    obtain ⟨stack, root⟩ := s
    cases stack with
    | nil => cases h
    | cons e stack =>
      obtain ⟨hplace, happend⟩ :=
        stays_appendElement limit (show appendElement e ⟨stack, root⟩ = .ok s' from h)
      refine ⟨hplace, ?_⟩
      rw [happend]
      simp only [ParseState.Stays, StackStays, ReadEvent.stays]
      tauto
  | text unescaped =>
    obtain ⟨text, htext, hrest⟩ := bind_ok_iff.mp h
    obtain rfl := xmlResult_ok_iff.mp htext
    split at hrest
    · rename_i hblank
      obtain rfl := Except.ok.inj hrest
      simp [ReadEvent.next, ReadEvent.stays, hblank]
    · rename_i hblank
      obtain ⟨hplace, _, happend⟩ := stays_appendContent limit rfl hrest
      rw [happend, hplace]
      simp [ReadEvent.next, ReadEvent.stays, hblank, XmlContent.SettledAfter, startsWithText]
  | cdata decoded =>
    obtain ⟨cdata, _, h⟩ := bind_ok_iff.mp h
    obtain ⟨hplace, _, happend⟩ := stays_appendContent limit rfl h
    rw [happend, hplace]
    simp [ReadEvent.next, ReadEvent.stays, XmlContent.SettledAfter, startsWithText]
  | comment decoded =>
    obtain ⟨comment, hcomment, hrest⟩ := bind_ok_iff.mp h
    obtain rfl := xmlResult_ok_iff.mp hcomment
    split at hrest
    · rename_i hempty
      obtain rfl := Except.ok.inj hrest
      have hplace : s.place = ⟨0, false⟩ := by
        rw [ParseState.place, List.isEmpty_iff.mp hempty]
        rfl
      simp [ReadEvent.next, ReadEvent.stays, hplace]
    · obtain ⟨hplace, hinside, happend⟩ := stays_appendContent limit rfl hrest
      rw [happend, hplace]
      simp [ReadEvent.next, ReadEvent.stays, XmlContent.SettledAfter, startsWithText, hinside]
  | other =>
    obtain rfl := Except.ok.inj h
    simp [ReadEvent.next, ReadEvent.stays]
  | error detail => cases h

theorem stays_parseEvents {events : List ReadEvent} {s s' : ParseState}
    (h : parseEvents label events s = .ok s') :
    s'.Stays limit ↔ s.Stays limit ∧ markupStays limit events s.place = true := by
  induction events generalizing s with
  | nil =>
    obtain rfl := Except.ok.inj h
    simp [markupStays]
  | cons event rest ih =>
    obtain ⟨t, ht, h⟩ := bind_ok_iff.mp h
    obtain ⟨hplace, hstays⟩ := stays_parseEvent limit ht
    rw [ih h, hstays, hplace, markupStays, Bool.and_eq_true, and_assoc]

end Parse

end AuruPm
