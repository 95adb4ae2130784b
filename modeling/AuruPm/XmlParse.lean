import AuruPm.XmlReading

/-!
# Parsing what was written

Every tree that the parser makes is one that it makes again of the tree's own events; and whether
a tree stays as it is when it is written and read shows in the markup it was parsed from.
-/

namespace AuruPm

set_option autoImplicit false

open SortedAssoc

/-- Not the end of a section. -/
def isSection (text : String) : Prop := Ableton.contains "]]>" text = false

mutual
/-- What holds of every tree that was parsed. -/
def XmlElement.Kept : XmlElement → Prop
  | .mk _ id attributes children =>
    Sorted attributes ∧ id = attributeId attributes ∧ ContentsKept children
def ContentsKept : List XmlContent → Prop
  | [] => True
  | .element element :: rest => element.Kept ∧ ContentsKept rest
  | .text text :: rest => isBlank text = false ∧ ContentsKept rest
  | .cdata cdata :: rest => isSection cdata ∧ ContentsKept rest
  | .comment _ :: rest => ContentsKept rest
end

def XmlContent.Kept (content : XmlContent) : Prop := ContentsKept [content]

theorem contentsKept_cons (content : XmlContent) (rest : List XmlContent) :
    ContentsKept (content :: rest) ↔ content.Kept ∧ ContentsKept rest := by
  cases content <;> simp [XmlContent.Kept, ContentsKept]

theorem contentsKept_append (contents rest : List XmlContent) :
    ContentsKept (contents ++ rest) ↔ ContentsKept contents ∧ ContentsKept rest := by
  induction contents with
  | nil => simp [ContentsKept]
  | cons content contents ih =>
    rw [List.cons_append, contentsKept_cons, contentsKept_cons, ih, and_assoc]

/-! Trees from their own events. -/

def XmlElement.pushAll (contents : List XmlContent) : XmlElement → XmlElement
  | .mk tag id attributes children => .mk tag id attributes (children ++ contents)

theorem XmlElement.pushAll_nil (e : XmlElement) : e.pushAll [] = e := by
  obtain ⟨tag, id, attributes, children⟩ := e
  rw [XmlElement.pushAll, List.append_nil]

theorem XmlElement.pushAll_cons (e : XmlElement) (content : XmlContent) (rest : List XmlContent) :
    e.pushAll (content :: rest) = (e.push content).pushAll rest := by
  obtain ⟨tag, id, attributes, children⟩ := e
  rw [XmlElement.pushAll, XmlElement.push, XmlElement.pushAll, List.append_assoc]
  rfl

theorem collectAttributes_readAttributes (tag : String) (attributes : List (String × String))
    {seen : List (String × String)} (h : Sorted (seen ++ attributes)) :
    collectAttributes tag (readAttributes attributes) seen = .ok (seen ++ attributes) := by
  induction attributes generalizing seen with
  | nil => rw [readAttributes, List.map_nil, collectAttributes, List.append_nil]
  | cons entry rest ih =>
    obtain ⟨key, value⟩ := entry
    have hlast : ∀ e ∈ seen, e.1 < key := by
      intro e he
      exact (List.pairwise_append.mp h).2.2 e he (key, value) List.mem_cons_self
    have hseen : get? seen key = none := get?_eq_none_of_gt hlast
    rw [← List.singleton_append, ← List.append_assoc] at h
    have hrest := ih h
    rw [readAttributes, List.map_cons, collectAttributes]
    simp only [xmlResult, bind, Except.bind, hseen, Option.isSome_none, Bool.false_eq_true, if_false,
      insert_last hlast]
    rw [List.append_assoc] at hrest
    exact hrest

theorem fromStart_readAttributes (tag : String) {attributes : List (String × String)}
    (h : Sorted attributes) :
    XmlElement.fromStart (.ok tag) (readAttributes attributes) =
      .ok (.mk tag (attributeId attributes) attributes []) := by
  have hattributes : collectAttributes tag (readAttributes attributes) [] = .ok attributes :=
    collectAttributes_readAttributes tag attributes h
  simp only [XmlElement.fromStart, xmlResult, bind, Except.bind, hattributes]
  rfl

section Parse
variable {label : String}

theorem parseEvents_append (events rest : List ReadEvent) (s : ParseState) :
    parseEvents label (events ++ rest) s = (do
      let s ← parseEvents label events s
      parseEvents label rest s) := by
  induction events generalizing s with
  | nil => rfl
  | cons event events ih =>
    rw [List.cons_append, parseEvents, parseEvents]
    cases parseEvent label event s with
    | error e => rfl
    | ok s => exact ih s

mutual
/-- A tree is parsed from its own events. -/
theorem parseEvents_reading : (e : XmlElement) → e.Kept → (s : ParseState) →
    parseEvents label e.reading s = appendElement e s
  | .mk tag id attributes children, h, s => by
    obtain ⟨hsorted, hid, hchildren⟩ := h
    have hstart := fromStart_readAttributes tag hsorted
    rw [← hid] at hstart
    rw [XmlElement.reading]
    split
    · rename_i hempty
      rw [List.isEmpty_iff.mp hempty, parseEvents, parseEvent, hstart]
      simp only [bind, Except.bind]
      cases appendElement (.mk tag id attributes []) s <;> rfl
    · rw [parseEvents, parseEvent, hstart]
      simp only [bind, Except.bind, pure, Except.pure]
      rw [parseEvents_append,
        parseEvents_contentsReading children hchildren (.mk tag id attributes []) s.stack s.root]
      simp only [bind, Except.bind, parseEvents, parseEvent, XmlElement.pushAll, List.nil_append]
      cases appendElement (.mk tag id attributes children) s <;> rfl
theorem parseEvents_contentsReading : (contents : List XmlContent) → ContentsKept contents →
    (parent : XmlElement) → (stack : List XmlElement) → (root : Option XmlElement) →
      parseEvents label (contentsReading contents) ⟨parent :: stack, root⟩ =
        .ok ⟨parent.pushAll contents :: stack, root⟩
  | [], _, parent, _, _ => by
    rw [XmlElement.pushAll_nil]
    rfl
  | .element e :: rest, h, parent, stack, root => by
    rw [contentsReading, parseEvents_append, parseEvents_reading e h.1, XmlElement.pushAll_cons]
    exact parseEvents_contentsReading rest h.2 _ stack root
  | .text text :: rest, h, parent, stack, root => by
    rw [contentsReading, XmlElement.pushAll_cons, parseEvents, parseEvent]
    simp only [xmlResult, bind, Except.bind, h.1, Bool.false_eq_true, if_false, appendContent]
    exact parseEvents_contentsReading rest h.2 _ stack root
  | .cdata cdata :: rest, h, parent, stack, root => by
    rw [contentsReading, XmlElement.pushAll_cons]
    exact parseEvents_contentsReading rest h.2 _ stack root
  | .comment comment :: rest, h, parent, stack, root => by
    rw [contentsReading, XmlElement.pushAll_cons]
    exact parseEvents_contentsReading rest h _ stack root
end

/-! What the parser makes. -/

structure ParseState.Kept (s : ParseState) : Prop where
  stack : ∀ e ∈ s.stack, e.Kept
  root : ∀ e ∈ s.root, e.Kept

theorem XmlElement.Kept.push {e : XmlElement} (h : e.Kept) {content : XmlContent}
    (hcontent : content.Kept) : (e.push content).Kept := by
  obtain ⟨tag, id, attributes, children⟩ := e
  exact ⟨h.1, h.2.1, (contentsKept_append _ _).mpr ⟨h.2.2, hcontent⟩⟩

theorem sorted_collectAttributes {tag : String} {read : List (Except String ReadAttribute)}
    {seen attributes : List (String × String)} (hseen : Sorted seen)
    (h : collectAttributes tag read seen = .ok attributes) : Sorted attributes := by
  induction read generalizing seen with
  | nil =>
    obtain rfl := Except.ok.inj h
    exact hseen
  | cons entry rest ih =>
    obtain ⟨entry, _, h⟩ := bind_ok_iff.mp h
    obtain ⟨key, _, h⟩ := bind_ok_iff.mp h
    obtain ⟨value, _, h⟩ := bind_ok_iff.mp h
    split at h
    · cases h
    · exact ih (sorted_insert hseen key value) h

theorem kept_fromStart {name : Except String String} {read : List (Except String ReadAttribute)}
    {e : XmlElement} (h : XmlElement.fromStart name read = .ok e) : e.Kept := by
  obtain ⟨tag, _, h⟩ := bind_ok_iff.mp h
  obtain ⟨attributes, hattributes, h⟩ := bind_ok_iff.mp h
  obtain rfl := Except.ok.inj h
  exact ⟨sorted_collectAttributes List.Pairwise.nil hattributes, rfl, trivial⟩

theorem kept_appendElement {e : XmlElement} {s s' : ParseState} (he : e.Kept) (hs : s.Kept)
    (h : appendElement e s = .ok s') : s'.Kept := by
  obtain ⟨stack, root⟩ := s
  cases stack with
  | cons parent stack =>
    obtain rfl := Except.ok.inj h
    obtain ⟨hparent, hstack⟩ := List.forall_mem_cons.mp hs.stack
    exact ⟨List.forall_mem_cons.mpr ⟨hparent.push ⟨he, trivial⟩, hstack⟩, hs.root⟩
  | nil =>
    cases root with
    | none =>
      obtain rfl := Except.ok.inj h
      refine ⟨hs.stack, fun e' he' => ?_⟩
      obtain rfl := Option.some.inj he'
      exact he
    | some root => cases h

theorem kept_appendContent {content : XmlContent} {s s' : ParseState} (hcontent : content.Kept)
    (hs : s.Kept) (h : appendContent label content s = .ok s') : s'.Kept := by
  obtain ⟨stack, root⟩ := s
  cases stack with
  | cons parent stack =>
    obtain rfl := Except.ok.inj h
    obtain ⟨hparent, hstack⟩ := List.forall_mem_cons.mp hs.stack
    exact ⟨List.forall_mem_cons.mpr ⟨hparent.push hcontent, hstack⟩, hs.root⟩
  | nil => cases h

/-- A section holds no end of a section. -/
def ReadEvent.Sections (events : List ReadEvent) : Prop :=
  ∀ cdata, .cdata (.ok cdata) ∈ events → isSection cdata

theorem xmlResult_ok_iff {A : Type} {r : Except String A} {a : A} :
    xmlResult label r = .ok a ↔ r = .ok a := by
  cases r with
  | ok b => simp [xmlResult]
  | error e => simp [xmlResult, projectFormatError]

theorem kept_parseEvent {event : ReadEvent} {s s' : ParseState} (hs : s.Kept)
    (hsection : ∀ cdata, event = .cdata (.ok cdata) → isSection cdata)
    (h : parseEvent label event s = .ok s') : s'.Kept := by
  cases event with
  | start name attributes =>
    obtain ⟨e, he, h⟩ := bind_ok_iff.mp h
    obtain rfl := Except.ok.inj h
    exact ⟨List.forall_mem_cons.mpr ⟨kept_fromStart he, hs.stack⟩, hs.root⟩
  | empty name attributes =>
    obtain ⟨e, he, h⟩ := bind_ok_iff.mp h
    exact kept_appendElement (kept_fromStart he) hs h
  | close =>
    obtain ⟨stack, root⟩ := s
    cases stack with
    | nil => cases h
    | cons e stack =>
      obtain ⟨he, hstack⟩ := List.forall_mem_cons.mp hs.stack
      have hrest : ParseState.Kept ⟨stack, root⟩ := ⟨hstack, hs.root⟩
      exact kept_appendElement he hrest h
  | text unescaped =>
    obtain ⟨text, _, h⟩ := bind_ok_iff.mp h
    split at h
    · obtain rfl := Except.ok.inj h
      exact hs
    · rename_i hblank
      have hkept : XmlContent.Kept (.text text) := ⟨Bool.eq_false_iff.mpr hblank, trivial⟩
      exact kept_appendContent hkept hs h
  | cdata decoded =>
    obtain ⟨cdata, hdecoded, h⟩ := bind_ok_iff.mp h
    rw [xmlResult_ok_iff] at hdecoded
    have hkept : XmlContent.Kept (.cdata cdata) := ⟨hsection cdata (by rw [hdecoded]), trivial⟩
    exact kept_appendContent hkept hs h
  | comment decoded =>
    obtain ⟨comment, _, h⟩ := bind_ok_iff.mp h
    split at h
    · obtain rfl := Except.ok.inj h
      exact hs
    · have hkept : XmlContent.Kept (.comment comment) := trivial
      exact kept_appendContent hkept hs h
  | other =>
    obtain rfl := Except.ok.inj h
    exact hs
  | error detail => cases h

/-- Whatever is parsed is kept by writing and reading, but for what joins and escapes. -/
theorem kept_parseEvents {events : List ReadEvent} {s s' : ParseState} (hs : s.Kept)
    (hsections : ReadEvent.Sections events) (h : parseEvents label events s = .ok s') : s'.Kept := by
  induction events generalizing s with
  | nil =>
    obtain rfl := Except.ok.inj h
    exact hs
  | cons event rest ih =>
    obtain ⟨t, ht, h⟩ := bind_ok_iff.mp h
    apply ih (kept_parseEvent hs _ ht) _ h
    · rintro cdata rfl
      exact hsections cdata List.mem_cons_self
    · exact fun cdata hmem => hsections cdata (List.mem_cons_of_mem _ hmem)

end Parse

end AuruPm
