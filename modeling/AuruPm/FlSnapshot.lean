import AuruPm.FlTree

/-!
# Snapshots of FL Studio projects lose nothing

Every event comes back from its element, so the tree of a decoded stream leads back to it, also
through canonical JSON. Only the registration name is redacted before.
-/

namespace AuruPm

set_option autoImplicit false

open SortedAssoc

namespace FlStudio

/-! Numbers as text. -/

theorem parseUnsigned_toString {bits n : Nat} (hbits : bits ≤ 64) (h : n < 2 ^ bits) :
    parseUnsigned bits (toString n) = some n := by
  have hword : n < 2 ^ 64 := Nat.lt_of_lt_of_le h (Nat.pow_le_pow_right (by decide) hbits)
  rw [parseUnsigned, parseUsize_toString, if_pos hword]
  simp [Option.filter, h]

theorem parseI16_i16Text (n : Int16) : parseI16 (i16Text n) = some n := by
  have hlow := n.le_toInt
  have hhigh := n.toInt_lt
  obtain ⟨hne, hall, hvalue⟩ := digits_toString n.toInt.natAbs
  unfold i16Text parseI16
  by_cases hneg : n.toInt < 0
  · have htext : ("-" ++ toString n.toInt.natAbs).toList = '-' :: (toString n.toInt.natAbs).toList :=
      String.toList_append
    have hint : -(n.toInt.natAbs : Int) = n.toInt := by omega
    rw [if_pos hneg, htext]
    simp only
    rw [if_pos ⟨hne, hall, by omega⟩, hvalue, hint, Int16.ofInt_toInt]
  · have hint : (n.toInt.natAbs : Int) = n.toInt := by omega
    rw [if_neg hneg, parseUnsigned_toString (by decide) (show n.toInt.natAbs < 2 ^ 15 by omega),
      Option.map_some, hint, Int16.ofInt_toInt]
    split
    · rename_i digits hlist
      have hdigit := List.all_eq_true.mp hall '-' (hlist ▸ List.mem_cons_self)
      exact absurd hdigit (by decide)
    · rfl

theorem take_toLeBytes {n k : Nat} (h : k ≤ n) (value : Nat) :
    (toLeBytes n value).take k = toLeBytes k value := by
  induction k generalizing n value with
  | zero => rfl
  | succ k ih =>
    cases n with
    | zero => omega
    | succ n => rw [toLeBytes, toLeBytes, List.take_succ_cons, ih (by omega)]

/-! Events. -/

/-- The id gives the length of the payload, if it is fixed. -/
def Event.Sized (event : Event) : Prop :=
  ∀ width, Event.fixedLen event.id = some width → event.payload.length = width

theorem Written.sized {body : List UInt8} {events : List Event} (h : Written body events) :
    ∀ event ∈ events, event.Sized := by
  induction h with
  | nil =>
    intro event he
    cases he
  | @cons event spelling rest events hspelling _ ih =>
    intro other he
    rcases List.mem_cons.mp he with rfl | he
    · intro width hwidth
      unfold Event.Prefixed at hspelling
      rw [hwidth] at hspelling
      exact hspelling.2
    · exact ih other he

theorem sized_of_decode {source : List UInt8} {stream : Stream}
    (h : Stream.decode source = .ok stream) : ∀ event ∈ stream.events, event.Sized := by
  obtain ⟨_, _, _, _, hwritten, _⟩ := decode_ok_iff.mp h
  exact hwritten.sized

theorem isVariable_iff (event : Event) : event.isVariable = true ↔ Event.fixedLen event.id = none := by
  have hle : event.isVariable = true ↔ 192 ≤ event.id.toNat := by
    simp [Event.isVariable, firstVariableEvent, UInt8.le_iff_toNat_le]
  rw [hle, Event.fixedLen]
  constructor
  · intro h
    rw [if_neg (by omega), if_neg (by omega), if_neg (by omega)]
  · intro h
    by_contra hlt
    split at h
    · cases h
    · split at h
      · cases h
      · rw [if_pos (by omega)] at h
        cases h

theorem fixedLen_le {id : UInt8} {width : Nat} (h : Event.fixedLen id = some width) : width ≤ 4 := by
  unfold Event.fixedLen at h
  split at h
  · cases h
    decide
  · split at h
    · cases h
      decide
    · split at h
      · cases h
        decide
      · cases h

theorem toLeBytes_take {payload : List UInt8} (h : payload.length ≤ 4) :
    (toLeBytes 4 (fromLeBytes payload)).take payload.length = payload := by
  rw [take_toLeBytes h, toLeBytes_fromLeBytes]

theorem readableText_some {event : Event} {utf16 : Bool} {text encoding : String}
    (h : readableText event utf16 = some (text, encoding)) :
    encodeText text encoding = event.payload := by
  unfold readableText at h
  by_cases hid : event.id ∉ textEvents
  · rw [if_pos hid] at h
    cases h
  · rw [if_neg hid] at h
    simp only at h
    generalize (if (decide (event.id = eventVersion) || !utf16) = true then
      (decodeAscii event.payload, "ascii") else (decodeUtf16 event.payload, "utf16")) = decoded at h
    obtain ⟨text', encoding'⟩ := decoded
    simp only at h
    by_cases hencoded : encodeText text' encoding' = event.payload
    · rw [if_pos hencoded] at h
      cases h
      exact hencoded
    · rw [if_neg hencoded] at h
      cases h

theorem parseAttribute_ok {α : Type} {parse : String → Option α} {element : XmlElement}
    {name raw : String} {a : α} (hget : element.attributeValue name = some raw)
    (hparse : parse raw = some a) : parseAttribute parse element name = .ok a := by
  rw [parseAttribute, hget]
  simp only [hparse]

section Round
variable {base64Encode : List UInt8 → String}
variable {base64Decode : String → Except String (List UInt8)}

theorem attributeValue_encodeEvent (event : Event) (utf16 : Bool) (key : String) :
    (encodeEvent base64Encode event utf16).attributeValue key =
      get? (eventAttributes base64Encode event utf16) key := rfl

theorem parse_eventId (event : Event) (utf16 : Bool) :
    parseAttribute (parseUnsigned 8) (encodeEvent base64Encode event utf16) "T" =
      .ok event.id.toNat := by
  have htext : get? (eventAttributes base64Encode event utf16) "T" =
      some (toString event.id.toNat) := by
    unfold eventAttributes attributesFrom
    cases event.isVariable with
    | false => simp [get?_insert]
    | true =>
      rcases readableText event utf16 with _ | ⟨text, encoding⟩
      · by_cases hpayload : event.payload = [] <;> simp [get?_insert, hpayload]
      · simp [get?_insert]
  exact parseAttribute_ok htext (parseUnsigned_toString (by decide) event.id.toNat_lt)

theorem attributeValue_fixed {event : Event} (h : event.isVariable = false) (utf16 : Bool) :
    (encodeEvent base64Encode event utf16).attributeValue "V" =
      some (toString (fromLeBytes event.payload)) := by
  rw [attributeValue_encodeEvent, eventAttributes, h]
  simp [get?_insert, Event.asU32, h]

variable (base64Encode) in
theorem attributeValue_text {event : Event} {utf16 : Bool} {text encoding : String}
    (h : event.isVariable = true) (hread : readableText event utf16 = some (text, encoding)) :
    (encodeEvent base64Encode event utf16).attributeValue "Enc" = some encoding ∧
      (encodeEvent base64Encode event utf16).attributeValue "V" = some text := by
  rw [attributeValue_encodeEvent, attributeValue_encodeEvent, eventAttributes, h, hread]
  simp [get?_insert]

variable (base64Encode) in
theorem attributeValue_opaque {event : Event} {utf16 : Bool} (h : event.isVariable = true)
    (hread : readableText event utf16 = none) :
    (encodeEvent base64Encode event utf16).attributeValue "Enc" = none ∧
      (encodeEvent base64Encode event utf16).attributeValue "B" =
        if event.payload ≠ [] then some (base64Encode event.payload) else none := by
  rw [attributeValue_encodeEvent, attributeValue_encodeEvent, eventAttributes, h, hread]
  by_cases hpayload : event.payload = [] <;> simp [get?_insert, hpayload, attributesFrom]

/-- Every event comes back from its element. -/
theorem decodeEvent_encodeEvent
    (hbase64 : ∀ bytes, base64Decode (base64Encode bytes) = .ok bytes) {event : Event}
    (h : event.Sized) (utf16 : Bool) :
    decodeEvent base64Decode (encodeEvent base64Encode event utf16) = .ok event := by
  have htag : ¬ (encodeEvent base64Encode event utf16).tag ≠ eventTag := not_not.mpr rfl
  have hid : event.id.toNat.toUInt8 = event.id := by simp
  rw [decodeEvent, if_neg htag]
  refine bind_ok_iff.mpr ⟨event.id.toNat, parse_eventId event utf16, ?_⟩
  simp only [hid]
  rcases hwidth : Event.fixedLen event.id with _ | width
  · have hvariable := (isVariable_iff event).mpr hwidth
    rcases hread : readableText event utf16 with _ | ⟨text, encoding⟩
    · obtain ⟨henc, hb⟩ := attributeValue_opaque base64Encode hvariable hread
      simp only [henc, hb]
      by_cases hpayload : event.payload = []
      · rw [if_neg (not_not.mpr hpayload), ← hpayload]
        rfl
      · rw [if_pos hpayload]
        simp only [hbase64]
        rfl
    · obtain ⟨henc, hv⟩ := attributeValue_text base64Encode hvariable hread
      simp only [henc, hv, Option.getD_some, readableText_some hread]
      rfl
  · have hfixed : event.isVariable = false := by
      rw [Bool.eq_false_iff]
      intro hvariable
      rw [(isVariable_iff event).mp hvariable] at hwidth
      cases hwidth
    have hlength : event.payload.length = width := h width hwidth
    have hle : event.payload.length ≤ 4 := hlength ▸ fixedLen_le hwidth
    have hvalue : fromLeBytes event.payload < 2 ^ 32 :=
      Nat.lt_of_lt_of_le (fromLeBytes_lt event.payload)
        (Nat.pow_le_pow_right (n := 256) (by decide) hle)
    refine bind_ok_iff.mpr ⟨fromLeBytes event.payload, ?_, ?_⟩
    · exact parseAttribute_ok (attributeValue_fixed hfixed utf16)
        (parseUnsigned_toString (by decide) hvalue)
    · rw [← hlength, toLeBytes_take hle]
      rfl

theorem childElements_group (tag : String) (identity : Option String)
    (children : List XmlContent) :
    (group tag identity children).childElements = children.filterMap XmlContent.element? := rfl

/-- The groups, taken apart, are what was open and then every event. -/
theorem elements_sections (utf16 : Bool) (tag : String) (identity : Option String)
    (children : List XmlContent) (events : List Event) :
    ((sections base64Encode utf16 tag identity children events).filterMap
        XmlContent.element?).flatMap XmlElement.childElements =
      children.filterMap XmlContent.element? ++
        events.map fun event => encodeEvent base64Encode event utf16 := by
  induction events generalizing tag identity children with
  | nil => simp [sections, XmlContent.element?, childElements_group]
  | cons event rest ih =>
    rw [sections]
    split
    · simp [XmlContent.element?, childElements_group, ih]
    · simp [XmlContent.element?, ih]

theorem decodeEvents_encodeEvent
    (hbase64 : ∀ bytes, base64Decode (base64Encode bytes) = .ok bytes) {events : List Event}
    (h : ∀ event ∈ events, event.Sized) (utf16 : Bool) :
    (events.map fun event => encodeEvent base64Encode event utf16).mapM
      (decodeEvent base64Decode) = .ok events := by
  induction events with
  | nil => rfl
  | cons event rest ih =>
    have hhead := decodeEvent_encodeEvent hbase64 (h event List.mem_cons_self) utf16
    have htail := ih fun e he => h e (List.mem_cons_of_mem _ he)
    rw [List.map_cons, List.mapM_cons, hhead]
    refine bind_ok_iff.mpr ⟨event, rfl, bind_ok_iff.mpr ⟨rest, htail, rfl⟩⟩

variable (base64Encode) in
theorem parse_header (stream : Stream) :
    parseAttribute parseI16 (toDocument base64Encode stream).root "Format" =
        .ok stream.header.format ∧
      parseAttribute (parseUnsigned 16) (toDocument base64Encode stream).root "Channels" =
        .ok stream.header.channels.toNat ∧
      parseAttribute (parseUnsigned 16) (toDocument base64Encode stream).root "Ppq" =
        .ok stream.header.ppq.toNat := by
  have hget : ∀ key, (toDocument base64Encode stream).root.attributeValue key =
      get? (attributesFrom [("Format", i16Text stream.header.format),
        ("Channels", toString stream.header.channels.toNat),
        ("Ppq", toString stream.header.ppq.toNat)]) key := fun _ => rfl
  refine ⟨parseAttribute_ok ?_ (parseI16_i16Text _),
    parseAttribute_ok ?_ (parseUnsigned_toString (by decide) stream.header.channels.toNat_lt),
    parseAttribute_ok ?_ (parseUnsigned_toString (by decide) stream.header.ppq.toNat_lt)⟩
  all_goals
    rw [hget]
    simp [attributesFrom, get?_insert]

/-- The tree of a stream whose fixed payloads have their length leads back to it. -/
theorem fromDocument_toDocument
    (hbase64 : ∀ bytes, base64Decode (base64Encode bytes) = .ok bytes) {stream : Stream}
    (h : ∀ event ∈ stream.events, event.Sized) :
    fromDocument base64Decode (toDocument base64Encode stream) = .ok stream := by
  obtain ⟨hformat, hchannels, hppq⟩ := parse_header base64Encode stream
  have htag : ¬ (toDocument base64Encode stream).root.tag ≠ rootTag := not_not.mpr rfl
  have hevents : (groupedElements (toDocument base64Encode stream).root).mapM
      (decodeEvent base64Decode) = .ok stream.events := by
    have helements : groupedElements (toDocument base64Encode stream).root =
        stream.events.map fun event =>
          encodeEvent base64Encode event (usesUtf16 stream.majorVersion) :=
      elements_sections (usesUtf16 stream.majorVersion) "Preamble" none [] stream.events
    rw [helements]
    exact decodeEvents_encodeEvent hbase64 h _
  rw [fromDocument, if_neg htag]
  refine bind_ok_iff.mpr ⟨_, hformat, bind_ok_iff.mpr ⟨_, hchannels, bind_ok_iff.mpr ⟨_, hppq,
    bind_ok_iff.mpr ⟨_, hevents, ?_⟩⟩⟩⟩
  simp [pure, Except.pure]

end Round

/-! The shape of the tree. -/

def groupTags : List String := ["Preamble", "Channel", "Pattern"]

/-- Every group is one of the three kinds and holds nothing but events. -/
theorem mem_sections {base64Encode : List UInt8 → String} {utf16 : Bool} {tag : String}
    {identity : Option String} {children : List XmlContent} {events : List Event}
    (htag : tag ∈ groupTags)
    (hchildren : ∀ c ∈ children, ∃ event, c = .element (encodeEvent base64Encode event utf16)) :
    ∀ c ∈ sections base64Encode utf16 tag identity children events, ∃ tag identity children,
      c = .element (group tag identity children) ∧ tag ∈ groupTags ∧
        ∀ c ∈ children, ∃ event, c = .element (encodeEvent base64Encode event utf16) := by
  induction events generalizing tag identity children with
  | nil =>
    intro c hc
    obtain rfl := List.mem_singleton.mp hc
    exact ⟨tag, identity, children, rfl, htag, hchildren⟩
  | cons event rest ih =>
    rw [sections]
    split
    · intro c hc
      rcases List.mem_cons.mp hc with rfl | hc
      · exact ⟨tag, identity, children, rfl, htag, hchildren⟩
      · refine ih ?_ ?_ c hc
        · split <;> simp [groupTags]
        · intro c hc
          obtain rfl := List.mem_singleton.mp hc
          exact ⟨event, rfl⟩
    · intro c hc
      refine ih htag ?_ c hc
      intro c hc
      rcases List.mem_append.mp hc with hc | hc
      · exact hchildren c hc
      · obtain rfl := List.mem_singleton.mp hc
        exact ⟨event, rfl⟩

theorem sorted_attributesFrom (entries : List (String × String)) : Sorted (attributesFrom entries) :=
  sorted_foldl_insert entries List.Pairwise.nil

section Shape
variable {base64Encode : List UInt8 → String}

variable (base64Encode) in
/-- The attributes of an event, as they were inserted. -/
theorem eventAttributes_eq (event : Event) (utf16 : Bool) :
    ∃ entries, eventAttributes base64Encode event utf16 = attributesFrom entries ∧
      ∀ e ∈ entries, e.1 ∈ ["T", "V", "Enc", "B"] := by
  unfold eventAttributes
  cases event.isVariable with
  | false => exact ⟨[("T", toString event.id.toNat), ("V", toString (event.asU32.getD 0))], rfl, by simp⟩
  | true =>
    rcases readableText event utf16 with _ | ⟨text, encoding⟩
    · by_cases hpayload : event.payload ≠ []
      · refine ⟨[("T", toString event.id.toNat), ("B", base64Encode event.payload)], ?_, by simp⟩
        exact if_pos hpayload
      · exact ⟨[("T", toString event.id.toNat)], if_neg hpayload, by simp⟩
    · exact ⟨[("T", toString event.id.toNat), ("V", text), ("Enc", encoding)], rfl, by simp⟩

theorem mem_preamble (stream : Stream) :
    ∀ c ∈ (toDocument base64Encode stream).root.children, ∃ tag identity children,
      c = .element (group tag identity children) ∧ tag ∈ groupTags ∧
        ∀ c ∈ children, ∃ event,
          c = .element (encodeEvent base64Encode event (usesUtf16 stream.majorVersion)) := by
  apply mem_sections
  · exact List.mem_cons_self
  · intro c hc
    cases hc

theorem mem_attributesFrom {entries : List (String × String)} {e : String × String}
    (h : e ∈ attributesFrom entries) : e ∈ entries := by
  rcases mem_foldl_insert h with h | ⟨entry, hentry, rfl⟩
  · cases h
  · exact hentry

/-! Order. -/

theorem contentsOrdered_of {contents : List XmlContent}
    (h : ∀ c ∈ contents, ∃ e : XmlElement, c = .element e ∧ e.Ordered) : ContentsOrdered contents := by
  induction contents with
  | nil => trivial
  | cons c rest ih =>
    obtain ⟨e, rfl, he⟩ := h c List.mem_cons_self
    exact ⟨he, ih fun c hc => h c (List.mem_cons_of_mem _ hc)⟩

theorem ordered_encodeEvent (event : Event) (utf16 : Bool) :
    (encodeEvent base64Encode event utf16).Ordered := by
  obtain ⟨entries, hentries, _⟩ := eventAttributes_eq base64Encode event utf16
  refine ⟨?_, trivial⟩
  rw [hentries]
  exact sorted_attributesFrom entries

theorem ordered_toDocument (stream : Stream) : (toDocument base64Encode stream).Ordered := by
  refine ⟨sorted_attributesFrom _, contentsOrdered_of fun c hc => ?_⟩
  obtain ⟨tag, identity, children, rfl, _, hchildren⟩ := mem_preamble stream c hc
  refine ⟨_, rfl, sorted_attributesFrom _, contentsOrdered_of fun c hc => ?_⟩
  obtain ⟨event, rfl⟩ := hchildren c hc
  exact ⟨_, rfl, ordered_encodeEvent event _⟩

/-! Depth. -/

theorem depth_elementValue_le {tag : String} {id : Option String}
    {attributes : List (String × String)} {children : List XmlContent} {n : Nat}
    (h : ∀ c ∈ children, ∃ e, c = .element e ∧ e.toValue.depth ≤ n) :
    (XmlElement.mk tag id attributes children).toValue.depth ≤ n + 2 := by
  rw [XmlElement.toValue]
  apply depth_structValue_le
  apply forall_elementFields (P := fun v => v.depth ≤ n + 1) (fun _ => Nat.zero_le _)
  · exact Nat.le_trans (depth_stringMapValue attributes) (by omega)
  · rw [Value.depth_array_le_iff]
    induction children with
    | nil =>
      intro v hv
      cases hv
    | cons c rest ih =>
      obtain ⟨e, rfl, he⟩ := h c List.mem_cons_self
      intro v hv
      rcases List.mem_cons.mp hv with rfl | hv
      · exact he
      · exact ih (fun c hc => h c (List.mem_cons_of_mem _ hc)) v hv

variable (base64Encode) in
theorem depth_toDocument (stream : Stream) : (toDocument base64Encode stream).toValue.depth ≤ 7 := by
  apply depth_structValue_le
  intro field hfield
  obtain rfl := List.mem_singleton.mp hfield
  apply depth_elementValue_le (n := 4)
  intro c hc
  obtain ⟨tag, identity, children, rfl, _, hchildren⟩ := mem_preamble stream c hc
  refine ⟨_, rfl, depth_elementValue_le (n := 2) fun c hc => ?_⟩
  obtain ⟨event, rfl⟩ := hchildren c hc
  exact ⟨_, rfl, depth_elementValue_le (n := 0) nofun⟩

/-! Validity. -/

section Valid
variable {C : CharClasses}

theorem validate_encodeEvent (hC : C.HasLetters) (event : Event) (utf16 : Bool) :
    (encodeEvent base64Encode event utf16).validate C = .ok () := by
  obtain ⟨entries, hentries, hkeys⟩ := eventAttributes_eq base64Encode event utf16
  apply validate_element
  · exact validateXmlName_letters hC (by decide) (by decide)
  · apply validateAttributes_letters hC
    intro e he
    have hkey := hkeys e (mem_attributesFrom (hentries ▸ he))
    simp only [List.mem_cons, List.not_mem_nil, or_false] at hkey
    rcases hkey with hkey | hkey | hkey | hkey <;> rw [hkey] <;> decide
  · intro h
    cases h
  · rfl

theorem validate_group (hC : C.HasLetters) {tag : String} {identity : Option String}
    {children : List XmlContent} (htag : tag ∈ groupTags)
    (hchildren : validateContents C children = .ok ()) :
    (group tag identity children).validate C = .ok () := by
  apply validate_element
  · simp only [groupTags, List.mem_cons, List.not_mem_nil, or_false] at htag
    rcases htag with rfl | rfl | rfl <;> exact validateXmlName_letters hC (by decide) (by decide)
  · apply validateAttributes_letters hC
    intro e he
    obtain ⟨i, _, rfl⟩ := List.mem_map.mp (mem_attributesFrom he)
    exact (show "Id".toList ≠ [] ∧ "Id".toList.all Char.isAlpha = true by decide)
  · intro h
    obtain ⟨i, rfl⟩ := Option.isSome_iff_exists.mp h
    have hkey : asciiLowercase "Id" = "id" := by
      rw [asciiLowercase, ← String.toList_inj, String.toList_map]
      decide
    exact attributeId_single hkey i
  · exact hchildren

theorem validate_toDocument (hC : C.HasLetters) (stream : Stream) :
    (toDocument base64Encode stream).validate C = .ok () := by
  apply validate_element
  · exact validateXmlName_letters hC (by decide) (by decide)
  · apply validateAttributes_letters hC
    intro e he
    have hentry := mem_attributesFrom he
    simp only [List.mem_cons, List.not_mem_nil, or_false] at hentry
    rcases hentry with rfl | rfl | rfl <;> simp only <;> decide
  · intro h
    cases h
  · apply validateContents_of
    intro c hc
    obtain ⟨tag, identity, children, rfl, htag, hchildren⟩ := mem_preamble stream c hc
    refine ⟨_, rfl, validate_group hC htag (validateContents_of fun c hc => ?_)⟩
    obtain ⟨event, rfl⟩ := hchildren c hc
    exact ⟨_, rfl, validate_encodeEvent hC event _⟩

end Valid

end Shape

/-! Snapshots. -/

theorem sized_redactEvent {terminator : List UInt8} {event : Event} (h : event.Sized) :
    (redactEvent terminator event).Sized := by
  unfold redactEvent
  split
  · rename_i hreg
    intro width hwidth
    rw [show Event.fixedLen event.id = none by rw [hreg.1]; decide] at hwidth
    cases hwidth
  · exact h

theorem sized_redact {stream : Stream} (h : ∀ event ∈ stream.events, event.Sized) :
    ∀ event ∈ stream.redact.events, event.Sized := by
  intro event he
  obtain ⟨original, horiginal, rfl⟩ := List.mem_map.mp he
  exact sized_redactEvent (h original horiginal)

/-- Redaction leaves every other event alone. -/
theorem redact_events (stream : Stream) :
    List.Forall₂ (fun event redacted => redacted.id = event.id ∧
      (event.id ≠ eventRegName → redacted = event)) stream.events stream.redact.events := by
  have hall : ∀ terminator, ∀ events : List Event,
      List.Forall₂ (fun event redacted => redacted.id = event.id ∧
        (event.id ≠ eventRegName → redacted = event)) events
          (events.map (redactEvent terminator)) := by
    intro terminator events
    induction events with
    | nil => exact .nil
    | cons event rest ih =>
      refine .cons ⟨?_, fun hne => ?_⟩ ih
      · unfold redactEvent
        split <;> rfl
      · exact if_neg fun h => hne h.1
  exact hall _ stream.events

section Snapshots
variable {Hash : Type} {F : Formats (List UInt8) Hash} {C : Codecs (List UInt8) Hash}
variable {blob : Value → Except String (List UInt8)} {limit : Nat}

variable (C) in
/-- The wrapper around a stream. -/
def wrapped (stream : Stream) : PortableSnapshot Hash :=
  ⟨1, .flStudio, toDocument C.base64Encode stream, none, []⟩

theorem storable_wrapped (stream : Stream) : (wrapped C stream).Storable where
  version := show 1 < 2 ^ 32 by decide
  project := ordered_toDocument stream
  metadata _ h := by cases h
  sizes _ h := by cases h

theorem depth_wrapped (stream : Stream) : ((wrapped C stream).toValue F).depth ≤ 8 := by
  apply depth_structValue_le
  apply forall_portableFields (P := fun v => v.depth ≤ 7)
  · exact Nat.zero_le 7
  · exact Nat.zero_le 7
  · exact depth_toDocument C.base64Encode stream
  · intro document h
    cases h
  · show 1 ≤ 7
    decide

theorem validate_wrapped (hC : C.toCharClasses.HasLetters) (stream : Stream) :
    (wrapped C stream).validate C = .ok () := by
  have hversion : ¬ ¬ (1 ≤ (wrapped C stream).auruPmSnapshot ∧ (wrapped C stream).auruPmSnapshot ≤ 2) :=
    show ¬ ¬ (1 ≤ 1 ∧ 1 ≤ 2) by decide
  have hformat : ¬ ((wrapped C stream).format = .auru ∨ (wrapped C stream).format = .bitwigProject) :=
    show ¬ (ProjectFormat.flStudio = .auru ∨ ProjectFormat.flStudio = .bitwigProject) by decide
  have hproject : (wrapped C stream).project.validate C.toCharClasses = .ok () :=
    validate_toDocument hC stream
  rw [PortableSnapshot.validate, if_neg hversion, if_neg hformat, hproject]
  rfl

variable [DecidableEq Hash]

/-- The tree of a decoded stream leads back to it, also through JSON; a project restored
from its snapshot is the decoded one with its registration name redacted. -/
theorem snapshot_lossless (hF : F.ReadsBlobs blob limit) (hlimit : 8 ≤ limit)
    (hbase64 : ∀ bytes, C.base64Decode (C.base64Encode bytes) = .ok bytes)
    (hC : C.toCharClasses.HasLetters) :
    (∀ source stream, Stream.decode source = .ok stream →
      fromDocument C.base64Decode (toDocument C.base64Encode stream) = .ok stream ∧
        ∀ bytes, blob (toDocument C.base64Encode stream).toValue = .ok bytes →
          (do
            let v ← parseJson F bytes
            let document ← serdeResult (readDocument v)
            fromDocument C.base64Decode document) = .ok stream) ∧
      ∀ source snapshot, fromSourceBytes F C blob source = .ok snapshot →
        ∃ stream, Stream.decode source = .ok stream ∧
          snapshot.restoreBytes F (withFromTree C) = .ok stream.redact.encode ∧
          stream.redact.header = stream.header ∧
          List.Forall₂ (fun event redacted => redacted.id = event.id ∧
            (event.id ≠ eventRegName → redacted = event)) stream.events stream.redact.events := by
  constructor
  · intro source stream hdecode
    have htree := fromDocument_toDocument hbase64 (sized_of_decode hdecode)
    refine ⟨htree, fun bytes hbytes => ?_⟩
    have hdepth := Nat.le_trans (depth_toDocument C.base64Encode stream)
      (Nat.le_trans (by decide) hlimit)
    obtain ⟨v, hv, hunfloat⟩ :=
      hF.parse hbytes (wf_documentValue (ordered_toDocument stream)) hdepth
    refine bind_ok_iff.mpr ⟨v, hv, bind_ok_iff.mpr ⟨toDocument C.base64Encode stream, ?_, htree⟩⟩
    rw [← readDocument_unfloat, hunfloat, readDocument_unfloat, readDocument_toValue, serdeResult]
  · intro source snapshot h
    obtain ⟨portable, hportable, h⟩ := bind_ok_iff.mp h
    obtain ⟨stream, hdecode, hportable⟩ := bind_ok_iff.mp hportable
    cases hportable
    obtain ⟨bytes, hbytes, h⟩ := bind_ok_iff.mp h
    cases h
    refine ⟨stream, hdecode, ?_, rfl, redact_events stream⟩
    have hstorable := storable_wrapped (C := C) stream.redact
    obtain ⟨v, hparsed, hread⟩ := hF.read_portable (C := withFromTree C) hstorable
      (fun _ h => absurd h List.not_mem_nil) hbytes
      (Nat.le_trans (depth_wrapped _) hlimit)
    have htree := fromDocument_toDocument hbase64 (sized_redact (sized_of_decode hdecode))
    rw [ProjectSnapshot.restoreBytes]
    refine bind_ok_iff.mpr ⟨_, hparsed, bind_ok_iff.mpr ⟨wrapped C stream.redact, ?_,
      bind_ok_iff.mpr ⟨(), validate_wrapped hC stream.redact, ?_⟩⟩⟩
    · rw [hread, serdeResult]
    · have hformat : ¬ (wrapped C stream.redact).format ≠ .flStudio := not_not.mpr rfl
      rw [if_neg hformat]
      exact bind_ok_iff.mpr ⟨_, htree, rfl⟩

end Snapshots

/-! A project with one channel. -/

def song : Stream where
  header := ⟨0, 1, 96⟩
  events :=
    [⟨199, "20.5.0".toList.map (fun c => c.toNat.toUInt8) ++ [0]⟩, ⟨200, [0x65, 0, 0x7A, 0, 0, 0]⟩,
      ⟨64, [7, 0]⟩]

def songText : String :=
  "\x7b\"auru_pm_snapshot\":1,\"format\":\"fl-studio\",\"project\":\x7b\"root\":\x7b" ++
    "\"attributes\":\x7b\"Channels\":\"1\",\"Format\":\"0\",\"Ppq\":\"96\"\x7d,\"children\":[" ++
    "\x7b\"children\":[\x7b\"attributes\":\x7b\"Enc\":\"ascii\",\"T\":\"199\",\"V\":\"20.5.0\"" ++
    "\x7d,\"tag\":\"E\"\x7d,\x7b\"attributes\":\x7b\"Enc\":\"utf16\",\"T\":\"200\",\"V\":\"\"\x7d," ++
    "\"tag\":\"E\"\x7d],\"tag\":\"Preamble\"\x7d,\x7b\"attributes\":\x7b\"Id\":\"7\"\x7d," ++
    "\"children\":[\x7b\"attributes\":\x7b\"T\":\"64\",\"V\":\"7\"\x7d,\"tag\":\"E\"\x7d]," ++
    "\"id\":\"7\",\"tag\":\"Channel\"\x7d],\"tag\":\"FLProject\"\x7d\x7d\x7d"

def songBytes : List UInt8 := songText.toList.map fun c => c.toNat.toUInt8

def plainFormats : Formats (List UInt8) (List UInt8) where
  contentHash := id
  zero := []
  hashText _ := ""
  byteLength := List.length
  encodeFrame := id
  decodeFrame := some
  encodeCommit _ := .error "unused"
  decodeCommit _ := .error "unused"
  encodeManifest _ := .error "unused"
  decodeManifest _ := .error "unused"
  encodeValue _ := []
  decodeValue _ := .error "expected value"

def songCodecs : Codecs (List UInt8) (List UInt8) where
  isAlphabetic := Char.isAlpha
  isAlphanumeric := Char.isAlphanum
  parseHash _ := none
  base64Encode bytes := String.ofList (bytes.map fun b => Char.ofNat b.toNat)
  base64Decode text := .ok (text.toList.map fun c => c.toNat.toUInt8)
  isBitwig _ := false
  writeXml _ := .error "unused"
  gzip bytes := .ok bytes
  flFromTree _ := .error "unused"
  zipStart _ _ := .ok ()
  zipWrite _ _ _ := .ok ()
  zipFinish _ := .error "unused"

def songValue : Value := (wrapped songCodecs song.redact).toValue plainFormats

def songBlob (v : Value) : Except String (List UInt8) :=
  if v = songValue then .ok songBytes else .error "unsupported"

def songParse (bytes : List UInt8) : Except String Value :=
  if bytes = songBytes then .ok songValue else .error "expected value"

theorem songParse_bytes : songParse songBytes = .ok songValue := if_pos rfl

def songFormats : Formats (List UInt8) (List UInt8) := { plainFormats with decodeValue := songParse }

theorem songFormats_decodeValue : songFormats.decodeValue = songParse := rfl

theorem songFormats_reads : songFormats.ReadsBlobs songBlob 127 where
  printed v bytes h _ _ := by
    rw [songBlob] at h
    split at h
    · rename_i hv
      refine ⟨songValue, ?_, by rw [hv]⟩
      rw [← Except.ok.inj h, songFormats_decodeValue, songParse_bytes]
    · cases h
  refused v bytes h _ hdeep := by
    rw [songBlob] at h
    split at h
    · rename_i hv
      have hdepth : songValue.depth ≤ 8 := depth_wrapped song.redact
      rw [hv] at hdeep
      omega
    · cases h

theorem songCodecs_base64 (bytes : List UInt8) :
    songCodecs.base64Decode (songCodecs.base64Encode bytes) = .ok bytes := by
  have hall : ∀ i : Fin 256, (Char.ofNat i.val).toNat % 256 = i.val := by decide +kernel
  have hbyte : ∀ b : UInt8, (Char.ofNat b.toNat).toNat.toUInt8 = b := by
    intro b
    apply UInt8.toNat_inj.mp
    exact hall ⟨b.toNat, b.toNat_lt⟩
  have hmap : (bytes.map fun b => Char.ofNat b.toNat).map (fun c => c.toNat.toUInt8) = bytes := by
    rw [List.map_map]
    exact (List.map_congr_left fun b _ => hbyte b).trans (List.map_id bytes)
  rw [songCodecs]
  simp only [String.toList_ofList, hmap]

theorem song_restored :
    ∃ snapshot, fromSourceBytes songFormats songCodecs songBlob song.encode = .ok snapshot ∧
      ∃ stream, Stream.decode song.encode = .ok stream ∧
        snapshot.restoreBytes songFormats (withFromTree songCodecs) = .ok stream.redact.encode := by
  have hdecode : Stream.decode song.encode = .ok song := by decide +kernel
  have hsnapshot : fromSourceBytes songFormats songCodecs songBlob song.encode =
      .ok ⟨.flStudio, songBytes, []⟩ := by
    refine bind_ok_iff.mpr ⟨wrapped songCodecs song.redact, ?_, bind_ok_iff.mpr ⟨songBytes, ?_, rfl⟩⟩
    · exact bind_ok_iff.mpr ⟨song, hdecode, rfl⟩
    · exact if_pos rfl
  have hletters : songCodecs.toCharClasses.HasLetters := by
    intro c hc
    exact ⟨hc, by simp [songCodecs, Char.isAlphanum, hc]⟩
  obtain ⟨stream, hstream, hrestored, _⟩ :=
    (snapshot_lossless songFormats_reads (by decide) songCodecs_base64 hletters).2 _ _ hsnapshot
  exact ⟨_, hsnapshot, stream, hstream, hrestored⟩

end FlStudio

end AuruPm
