import AuruPm.SnapshotValue

/-!
# The OAuth section of the capabilities

The singular fields describe the native client and predate the list of clients. Every decode fills
in the form that is missing; where a document gives both and they differ, both are kept.
-/

namespace AuruPm

set_option autoImplicit false

open SortedAssoc

inductive OAuthFlow where
  | authorizationCodePkce
  | deviceAuthorization
  deriving DecidableEq, Repr

inductive OAuthClientKind where
  | native
  | browser
  deriving DecidableEq, Repr

structure OAuthClient where
  kind : OAuthClientKind
  clientId : String
  redirectUri : String
  flows : List OAuthFlow
  deriving DecidableEq, Repr

structure OAuthClientConfiguration where
  issuer : String
  audience : String
  requiredScope : String
  clientId : String
  redirectUri : String
  flows : List OAuthFlow
  clients : List OAuthClient
  deriving DecidableEq, Repr

/-- The wire form, with the singular fields, the list or both. -/
structure OAuthClientConfigurationWire where
  issuer : String
  audience : String
  requiredScope : String
  clientId : Option String
  redirectUri : Option String
  flows : Option (List OAuthFlow)
  clients : List OAuthClient
  deriving DecidableEq, Repr

/-- The first client of a kind. -/
def clientOf (clients : List OAuthClient) (kind : OAuthClientKind) : Option OAuthClient :=
  clients.find? fun client => client.kind = kind

namespace OAuthClientConfiguration

def client (c : OAuthClientConfiguration) (kind : OAuthClientKind) : Option OAuthClient :=
  clientOf c.clients kind

def browserClient (c : OAuthClientConfiguration) : Option OAuthClient := c.client .browser

/-- `From<OAuthClientConfigurationWire>`. -/
def ofWire (wire : OAuthClientConfigurationWire) : OAuthClientConfiguration :=
  let native := clientOf wire.clients .native
  let clientId := (wire.clientId.or (native.map OAuthClient.clientId)).getD ""
  let redirectUri := (wire.redirectUri.or (native.map OAuthClient.redirectUri)).getD ""
  let flows := (wire.flows.or (native.map OAuthClient.flows)).getD []
  { issuer := wire.issuer
    audience := wire.audience
    requiredScope := wire.requiredScope
    clientId := clientId
    redirectUri := redirectUri
    flows := flows
    clients :=
      if native.isNone && !clientId.isEmpty then ⟨.native, clientId, redirectUri, flows⟩ :: wire.clients
      else wire.clients }

/-- `OAuthClientConfiguration::new`. -/
def new (issuer audience requiredScope : String) (clients : List OAuthClient) :
    OAuthClientConfiguration :=
  ofWire ⟨issuer, audience, requiredScope, none, none, none, clients⟩

end OAuthClientConfiguration

/-! Reading and writing. -/

def OAuthFlow.name : OAuthFlow → String
  | .authorizationCodePkce => "authorization_code_pkce"
  | .deviceAuthorization => "device_authorization"

def OAuthFlow.ofName : String → Option OAuthFlow
  | "authorization_code_pkce" => some .authorizationCodePkce
  | "device_authorization" => some .deviceAuthorization
  | _ => none

def OAuthClientKind.name : OAuthClientKind → String
  | .native => "native"
  | .browser => "browser"

def OAuthClientKind.ofName : String → Option OAuthClientKind
  | "native" => some .native
  | "browser" => some .browser
  | _ => none

/-- A variant is its name, or an object that holds nothing under its name. -/
def readVariant {α : Type} (ofName : String → Option α) : Value → Option α
  | .string name => ofName name
  | .object [(name, .null)] => ofName name
  | _ => none

/-- Whether no field of a struct is given twice. -/
def givenOnce (names : List String) : Value → Bool
  | .object fields =>
    names.all fun name => decide ((fields.filter fun field => field.1 = name).length ≤ 1)
  | _ => true

def OAuthClient.fieldNames : List String := ["kind", "client_id", "redirect_uri", "flows"]

def readFlows : Value → Option (List OAuthFlow) := readList (readVariant OAuthFlow.ofName)

def OAuthClient.read (v : Value) : Option OAuthClient :=
  if isStruct 4 v && givenOnce fieldNames v then do
    let kind ← (structField v 0 "kind").bind (readVariant OAuthClientKind.ofName)
    let clientId ← (structField v 1 "client_id").bind Value.asStr
    let redirectUri ← (structField v 2 "redirect_uri").bind Value.asStr
    let flows ← (structField v 3 "flows").bind readFlows
    return ⟨kind, clientId, redirectUri, flows⟩
  else none

def OAuthClientConfigurationWire.fieldNames : List String :=
  ["issuer", "audience", "required_scope", "client_id", "redirect_uri", "flows", "clients"]

def OAuthClientConfigurationWire.read (v : Value) : Option OAuthClientConfigurationWire :=
  if isStruct 7 v && givenOnce fieldNames v then do
    let issuer ← (structField v 0 "issuer").bind Value.asStr
    let audience ← (structField v 1 "audience").bind Value.asStr
    let requiredScope ← (structField v 2 "required_scope").bind Value.asStr
    let clientId ← readDefault none (readOption Value.asStr) (structField v 3 "client_id")
    let redirectUri ← readDefault none (readOption Value.asStr) (structField v 4 "redirect_uri")
    let flows ← readDefault none (readOption readFlows) (structField v 5 "flows")
    let clients ← readDefault [] (readList OAuthClient.read) (structField v 6 "clients")
    return ⟨issuer, audience, requiredScope, clientId, redirectUri, flows, clients⟩
  else none

def OAuthClientConfiguration.read (v : Value) : Option OAuthClientConfiguration :=
  (OAuthClientConfigurationWire.read v).map OAuthClientConfiguration.ofWire

def flowsValue (flows : List OAuthFlow) : Value := .array (flows.map fun flow => .string flow.name)

def OAuthClient.toValue (client : OAuthClient) : Value :=
  .object [("kind", .string client.kind.name), ("client_id", .string client.clientId),
    ("redirect_uri", .string client.redirectUri), ("flows", flowsValue client.flows)]

def clientsValue (clients : List OAuthClient) : Value := .array (clients.map OAuthClient.toValue)

def OAuthClientConfiguration.toValue (c : OAuthClientConfiguration) : Value :=
  .object <|
    [("issuer", .string c.issuer), ("audience", .string c.audience),
      ("required_scope", .string c.requiredScope), ("client_id", .string c.clientId),
      ("redirect_uri", .string c.redirectUri), ("flows", flowsValue c.flows)] ++
      skipEmpty "clients" clientsValue c.clients

/-! What a decode leaves. -/

theorem mapM_map_some {α β : Type} {write : α → β} {read : β → Option α}
    (h : ∀ a, read (write a) = some a) (list : List α) : (list.map write).mapM read = some list := by
  induction list with
  | nil => rfl
  | cons a rest ih => simp only [List.map_cons, List.mapM_cons, h, ih]; rfl

@[simp] theorem readVariant_flow (flow : OAuthFlow) :
    readVariant OAuthFlow.ofName (.string flow.name) = some flow := by
  cases flow <;> rfl

@[simp] theorem readVariant_kind (kind : OAuthClientKind) :
    readVariant OAuthClientKind.ofName (.string kind.name) = some kind := by
  cases kind <;> rfl

@[simp] theorem readFlows_flowsValue (flows : List OAuthFlow) :
    readFlows (flowsValue flows) = some flows :=
  mapM_map_some readVariant_flow flows

@[simp] theorem readOption_flowsValue (flows : List OAuthFlow) :
    readOption readFlows (flowsValue flows) = some (some flows) :=
  congrArg (Option.map some) (readFlows_flowsValue flows)

@[simp] theorem readOption_string (s : String) :
    readOption Value.asStr (.string s) = some (some s) := rfl

@[simp] theorem OAuthClient.read_toValue (client : OAuthClient) :
    OAuthClient.read client.toValue = some client := by
  simp [OAuthClient.read, OAuthClient.toValue, isStruct, givenOnce, OAuthClient.fieldNames,
    structField, get?_cons, Value.asStr]

@[simp] theorem readList_clientsValue (clients : List OAuthClient) :
    readList OAuthClient.read (clientsValue clients) = some clients :=
  mapM_map_some OAuthClient.read_toValue clients

namespace OAuthClientConfiguration

/-- The wire form of a configuration that was serialized. -/
def wire (c : OAuthClientConfiguration) : OAuthClientConfigurationWire :=
  ⟨c.issuer, c.audience, c.requiredScope, some c.clientId, some c.redirectUri, some c.flows,
    c.clients⟩

theorem readWire_toValue (c : OAuthClientConfiguration) :
    OAuthClientConfigurationWire.read c.toValue = some c.wire := by
  obtain ⟨issuer, audience, requiredScope, clientId, redirectUri, flows, clients⟩ := c
  cases clients with
  | nil =>
    simp [OAuthClientConfigurationWire.read, toValue, wire, isStruct, givenOnce, skipEmpty,
      OAuthClientConfigurationWire.fieldNames, structField, get?_cons, Value.asStr, readDefault]
  | cons client rest =>
    simp [OAuthClientConfigurationWire.read, toValue, wire, isStruct, givenOnce, skipEmpty,
      OAuthClientConfigurationWire.fieldNames, structField, get?_cons, Value.asStr, readDefault]

/-- Old clients read the singular fields and new ones the list: both see one native client. -/
structure Reconciled (c : OAuthClientConfiguration) : Prop where
  native : ∀ native, c.client .native = some native →
    c.clientId = native.clientId ∧ c.redirectUri = native.redirectUri ∧ c.flows = native.flows
  absent : c.client .native = none → c.clientId = ""

variable {wire : OAuthClientConfigurationWire} {native : OAuthClient}

theorem clientOf_native_cons {client : OAuthClient} (h : client.kind = .native)
    (rest : List OAuthClient) : clientOf (client :: rest) .native = some client := by
  simp [clientOf, h]

theorem ofWire_of_native (h : clientOf wire.clients .native = some native) :
    ofWire wire = ⟨wire.issuer, wire.audience, wire.requiredScope,
      wire.clientId.getD native.clientId, wire.redirectUri.getD native.redirectUri,
      wire.flows.getD native.flows, wire.clients⟩ := by
  cases hid : wire.clientId <;> cases huri : wire.redirectUri <;> cases hflows : wire.flows <;>
    simp [ofWire, h, hid, huri, hflows]

theorem ofWire_of_none (h : clientOf wire.clients .native = none) :
    ofWire wire = ⟨wire.issuer, wire.audience, wire.requiredScope,
      wire.clientId.getD "", wire.redirectUri.getD "", wire.flows.getD [],
      if wire.clientId.getD "" = "" then wire.clients
      else ⟨.native, wire.clientId.getD "", wire.redirectUri.getD "", wire.flows.getD []⟩ ::
        wire.clients⟩ := by
  by_cases hid : wire.clientId.getD "" = "" <;> simp [ofWire, h, hid]

/-- A client id is left only beside a native client. -/
theorem ofWire_absent (wire : OAuthClientConfigurationWire)
    (hnone : (ofWire wire).client .native = none) : (ofWire wire).clientId = "" := by
  cases h : clientOf wire.clients .native with
  | some native =>
    rw [ofWire_of_native h] at hnone
    exact absurd (h.symm.trans hnone) (by simp)
  | none =>
    rw [ofWire_of_none h] at hnone ⊢
    by_cases hid : wire.clientId.getD "" = ""
    · exact hid
    · simp only [client, if_neg hid, clientOf_native_cons] at hnone
      cases hnone

theorem ofWire_wire {c : OAuthClientConfiguration}
    (h : c.client .native = none → c.clientId = "") : ofWire c.wire = c := by
  obtain ⟨issuer, audience, requiredScope, clientId, redirectUri, flows, clients⟩ := c
  cases hnative : clientOf clients .native with
  | some native => exact ofWire_of_native hnative
  | none =>
    have hid : clientId = "" := h hnative
    rw [ofWire_of_none hnative]
    simp [wire, hid]

/-- What a decode made is what a second decode makes of its serialized form. -/
theorem read_toValue (wire : OAuthClientConfigurationWire) :
    read (ofWire wire).toValue = some (ofWire wire) := by
  rw [read, readWire_toValue, Option.map_some, ofWire_wire (ofWire_absent wire)]

end OAuthClientConfiguration

/-- Where a document gives a singular field beside a native client, it says the same. -/
def OAuthClientConfigurationWire.Consistent (wire : OAuthClientConfigurationWire) : Prop :=
  ∀ native, clientOf wire.clients .native = some native →
    (∀ clientId ∈ wire.clientId, clientId = native.clientId) ∧
    (∀ redirectUri ∈ wire.redirectUri, redirectUri = native.redirectUri) ∧
    ∀ flows ∈ wire.flows, flows = native.flows

namespace OAuthClientConfiguration

theorem getD_eq_iff {α : Type} (given : Option α) (a : α) : given.getD a = a ↔ ∀ b ∈ given, b = a := by
  cases given <;> simp

theorem ofWire_reconciled_iff (wire : OAuthClientConfigurationWire) :
    (ofWire wire).Reconciled ↔ wire.Consistent := by
  cases h : clientOf wire.clients .native with
  | some native =>
    have hclient : (ofWire wire).client .native = some native := by rw [ofWire_of_native h]; exact h
    have hfields : ((ofWire wire).clientId = native.clientId ∧
        (ofWire wire).redirectUri = native.redirectUri ∧ (ofWire wire).flows = native.flows) ↔
        (∀ clientId ∈ wire.clientId, clientId = native.clientId) ∧
        (∀ redirectUri ∈ wire.redirectUri, redirectUri = native.redirectUri) ∧
        ∀ flows ∈ wire.flows, flows = native.flows := by
      rw [ofWire_of_native h]
      simp only [getD_eq_iff]
    constructor
    · intro hrec other hother
      cases h.symm.trans hother
      exact hfields.mp (hrec.native native hclient)
    · intro hcons
      refine ⟨fun other hother => ?_, fun hnone => absurd (hclient.symm.trans hnone) (by simp)⟩
      cases hclient.symm.trans hother
      exact hfields.mpr (hcons native h)
  | none =>
    refine iff_of_true ⟨fun native hnative => ?_, ofWire_absent wire⟩
      fun native hnative => absurd (h.symm.trans hnative) (by simp)
    rw [ofWire_of_none h] at hnative ⊢
    by_cases hid : wire.clientId.getD "" = ""
    · simp only [client, if_pos hid, h] at hnative
      cases hnative
    · simp only [client, if_neg hid, clientOf_native_cons] at hnative
      cases hnative
      exact ⟨rfl, rfl, rfl⟩

/-- A provider that builds its section from the clients alone publishes both forms alike. -/
theorem new_reconciled (issuer audience requiredScope : String) (clients : List OAuthClient) :
    (new issuer audience requiredScope clients).Reconciled := by
  refine (ofWire_reconciled_iff _).mpr fun native _ => ?_
  simp

/-- Every decode survives serializing, and old and new clients see one native client exactly where
the document's singular fields do not contradict its list. -/
theorem oauth_section {v : Value} {wire : OAuthClientConfigurationWire}
    (hwire : OAuthClientConfigurationWire.read v = some wire) :
    ∃ c, read v = some c ∧ read c.toValue = some c ∧ (c.Reconciled ↔ wire.Consistent) := by
  refine ⟨ofWire wire, ?_, read_toValue wire, ofWire_reconciled_iff wire⟩
  rw [read, hwire, Option.map_some]

/-- A document whose singular client id is not the one in its list. -/
def twoIds : Value :=
  .object [("issuer", .string "https://id"), ("audience", .string "api"),
    ("required_scope", .string "sync"), ("client_id", .string "old"),
    ("clients", clientsValue [⟨.native, "new", "http://127.0.0.1:1/", [.deviceAuthorization]⟩])]

def twoIdsWire : OAuthClientConfigurationWire :=
  ⟨"https://id", "api", "sync", some "old", none, none,
    [⟨.native, "new", "http://127.0.0.1:1/", [.deviceAuthorization]⟩]⟩

theorem twoIds_read : OAuthClientConfigurationWire.read twoIds = some twoIdsWire := by
  simp [OAuthClientConfigurationWire.read, twoIds, twoIdsWire, isStruct, givenOnce,
    OAuthClientConfigurationWire.fieldNames, structField, get?_cons, Value.asStr, readDefault]

theorem twoIds_not_reconciled :
    ∃ c, read twoIds = some c ∧ c.clientId = "old" ∧
      c.client .native = some ⟨.native, "new", "http://127.0.0.1:1/", [.deviceAuthorization]⟩ ∧
      ¬ c.Reconciled := by
  have hread : read twoIds = some (ofWire twoIdsWire) := by rw [read, twoIds_read, Option.map_some]
  refine ⟨ofWire twoIdsWire, hread, rfl, rfl, fun h => ?_⟩
  have hid := (h.native _ rfl).1
  exact absurd hid (by decide)

theorem twoIds_section :
    ∃ c, read twoIds = some c ∧ read c.toValue = some c ∧ (c.Reconciled ↔ twoIdsWire.Consistent) :=
  oauth_section twoIds_read

end OAuthClientConfiguration

end AuruPm
