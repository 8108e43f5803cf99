import Dagayn.Json
import Dagayn.Text

/-!
# The MCP front end

`Session::handle` of `dagayn serve`: which messages the front end answers itself, from
a recorded `Surface` or with a native tool, and which it hands to the Python backend.
A client line is the JSON value read from it, or `none` where `serde_json` reads none.
-/

namespace Dagayn

namespace Json

/-- `Value::as_object`. -/
def asObj : Json → Option (List (String × Json))
  | .obj fields => some fields
  | _ => none

/-- `Value::is_string`. -/
def isStr : Json → Bool
  | .str _ => true
  | _ => false

end Json

namespace Mcp

def handshakeProtocolVersions : List String :=
  ["2024-11-05", "2025-03-26", "2025-06-18", "2025-11-25"]

def modernProtocolVersion : String := "2026-07-28"

def protocolVersionMeta : String := "io.modelcontextprotocol/protocolVersion"

def serverInfoMeta : String := "io.modelcontextprotocol/serverInfo"

def proxyInitId : String := "dagayn-proxy-init"

def promptArgumentPlaceholder : String := "\x00dagayn-prompt-argument\x00"

/-- `envelope_version`: the revision a `_meta` envelope names, if there is an envelope. -/
def envelopeVersion (params : Option Json) : Option (Option String) :=
  (params.bind fun p => p.get "_meta").bind fun m => m.asObj.bind fun fields =>
    (fields.lookup protocolVersionMeta).map Json.asStr

structure Surface where
  capabilities : Json
  instructions : Option String
  serverName : String
  tools : List Json
  prompts : List Json
  discover : Option Json
  promptReplies : List (String × Json)

structure Config where
  surface : Surface
  /-- `None` exposes every tool. -/
  allowedTools : Option (List String)
  version : String

/-- Tools the front end answers itself. -/
structure Native where
  callTool : String → Json → Option (String × Json)
  writesGraph : String → Bool

structure Session where
  initParams : Option Json := none
  initialized : Bool := false
  /-- The `_meta` envelope of the 2026-07-28 request that opened the connection. -/
  modern : Option Json := none
  /-- `proxy.is_some()`: the backend runs. -/
  booted : Bool := false

mutual

def fillPlaceholder (argument : String) : Json → Json
  | .str text => .str (text.replace promptArgumentPlaceholder argument)
  | .arr items => .arr (fillItems argument items)
  | .obj fields => .obj (fillFields argument fields)
  | v => v

def fillItems (argument : String) : List Json → List Json
  | [] => []
  | v :: vs => fillPlaceholder argument v :: fillItems argument vs

def fillFields (argument : String) : List (String × Json) → List (String × Json)
  | [] => []
  | (key, v) :: fields => (key, fillPlaceholder argument v) :: fillFields argument fields

end

variable (config : Config) (native : Native) (s : Session)

def initializeResult (params : Json) : Json :=
  let version := ((params.getStr "protocolVersion").filter fun v =>
    handshakeProtocolVersions.contains v).getD "2025-11-25"
  .obj ([("protocolVersion", .str version),
    ("capabilities", config.surface.capabilities),
    ("serverInfo", .obj [("name", .str config.surface.serverName),
      ("version", .str config.version)])] ++
    config.surface.instructions.toList.map fun text => ("instructions", .str text))

def allows (name : String) : Bool := config.allowedTools.all fun names => names.contains name

def exposedTools : List Json :=
  config.surface.tools.filter fun tool => allows config ((tool.getStr "name").getD "")

def localResult (method : String) (params : Option Json) : Option Json :=
  if s.initParams.isNone || (envelopeVersion params).isSome then none
  else if method = "logging/setLevel" then
    if s.booted then none else some (.obj [])
  else
    let plain := match params with
      | none => true
      | some .null => true
      | some (.obj fields) => fields.isEmpty
      | some _ => false
    if !plain then none
    else if method = "ping" then some (.obj [])
    else if method = "tools/list" then some (.obj [("tools", .arr (exposedTools config))])
    else if method = "prompts/list" then some (.obj [("prompts", .arr config.surface.prompts)])
    else if method = "resources/list" then some (.obj [("resources", .arr [])])
    else if method = "resources/templates/list" then
      some (.obj [("resourceTemplates", .arr [])])
    else none

/-- The parameters `tools/call` and `prompts/get` may carry. -/
def plainCall (fields : List (String × Json)) : Bool :=
  fields.all fun e => e.1 = "name" || e.1 = "arguments" || e.1 = "_meta"

/-- The recorded reply of `prompt_get` for the arguments the prompt declares. -/
def promptReply (replies : Json) (declared arguments : List (String × Json)) : Option Json :=
  match arguments.filterMap fun e =>
      if (declared.lookup e.1).isSome then e.2.asStr.map fun v => (e.1, v) else none with
  | [] => replies.get "default"
  | [(argument, value)] =>
      if value = "" then (declared.lookup argument).bind fun d => d.get "empty"
      else if (splitFirst promptArgumentPlaceholder.toList value.toList).isSome then none
      else ((declared.lookup argument).bind fun d => d.get "template").map (fillPlaceholder value)
  | _ => none

def promptGet (params : Option Json) : Option Json :=
  if s.initParams.isNone then none
  else (params.bind Json.asObj).bind fun fields =>
    let enveloped := (fields.lookup "_meta").any fun m =>
      m.asObj.all fun entries => (entries.lookup protocolVersionMeta).isSome
    if !plainCall fields || enveloped then none
    else ((fields.lookup "name").bind Json.asStr).bind fun name =>
      (config.surface.promptReplies.lookup name).bind fun replies =>
      ((replies.get "arguments").bind Json.asObj).bind fun declared =>
        let arguments := match fields.lookup "arguments" with
          | none => some []
          | some .null => some []
          | some (.obj arguments) => some arguments
          | some _ => none
        arguments.bind fun arguments =>
          if arguments.all fun e => e.2.isStr then promptReply replies declared arguments
          else none

def nativeAnswer (params : Option Json) : Option (String × Json) :=
  (params.bind Json.asObj).bind fun fields =>
    if !plainCall fields || (s.modern.isNone && (envelopeVersion params).isSome) then none
    else ((fields.lookup "name").bind Json.asStr).bind fun name =>
      let listed := config.surface.tools.any fun tool => tool.getStr "name" == some name
      if !(listed && allows config name) || (s.booted && native.writesGraph name) then none
      else native.callTool name ((fields.lookup "arguments").getD (.obj []))

def nativeCall (params : Option Json) : Option Json :=
  if s.initParams.isNone then none
  else (nativeAnswer config native s params).map fun answer =>
    .obj [("content", .arr [.obj [("type", .str "text"), ("text", .str answer.1)]]),
      ("structuredContent", answer.2), ("isError", .bool false)]

def serverInfoStamp : Json :=
  .obj [(serverInfoMeta, .obj [("name", .str config.surface.serverName),
    ("version", .str config.version)])]

/-- The `listing` closure of `modern_result`. -/
def modernListing (key : String) (items : List Json) : Json :=
  .obj [("cacheScope", .str "private"), (key, .arr items), ("resultType", .str "complete"),
    ("ttlMs", .int 0), ("_meta", serverInfoStamp config)]

def modernResult (method : String) (params : Option Json) : Option Json :=
  let onlyMeta := (params.bind Json.asObj).any fun fields => fields.all fun e => e.1 = "_meta"
  if method = "server/discover" && onlyMeta then
    (config.surface.discover.bind Json.asObj).map fun fields =>
      .obj (("_meta", serverInfoStamp config) :: fields.filter fun e => e.1 ≠ "_meta")
  else if method = "tools/list" && onlyMeta then
    some (modernListing config "tools" (exposedTools config))
  else if method = "prompts/list" && onlyMeta then
    some (modernListing config "prompts" config.surface.prompts)
  else if method = "resources/list" && onlyMeta then some (modernListing config "resources" [])
  else if method = "tools/call" then
    (nativeAnswer config native s params).map fun answer =>
      .obj [("content", .arr [.obj [("type", .str "text"), ("text", .str answer.1)]]),
        ("isError", .bool false), ("resultType", .str "complete"),
        ("structuredContent", answer.2), ("_meta", serverInfoStamp config)]
  else none

/-! ## Handling a line -/

/-- What `handle` does with a line. -/
inductive Response where
  /-- `reply(&self.output, id, result)`. -/
  | reply (id result : Json)
  /-- `delegate(line)`: boots the backend first if it does not run. -/
  | delegate
  /-- `forward_if_booted(line)`. -/
  | forward
  | drop

/-- The reply to a request, or `None` to delegate. -/
def answerOrDelegate (id : Json) : Option Json → Response
  | some result => .reply id result
  | none => .delegate

/-- A request other than the first `initialize`. -/
def handleRequest (method : String) (id : Json) (params : Option Json) : Session × Response :=
  match envelopeVersion params with
  | some version =>
      if (s.modern.isSome || (s.initParams.isNone && !s.booted)) &&
          version = some modernProtocolVersion then
        let s := if s.modern.isNone then { s with modern := params.bind fun p => p.get "_meta" }
          else s
        (s, answerOrDelegate id (modernResult config native s method params))
      else (s, .delegate)
  | none =>
      let result :=
        if method = "tools/call" then nativeCall config native s params
        else if method = "prompts/get" then promptGet config s params
        else localResult config s method params
      (s, answerOrDelegate id result)

/-- `Session::handle`, up to its writes. -/
def handle (line : Option Json) : Session × Response :=
  match line with
  | none => (s, .delegate)
  | some message =>
      match message.getStr "method", message.get "id" with
      | some method, some id =>
          let params := (message.get "params").getD .null
          if method = "initialize" && s.initParams.isNone && !s.booted && s.modern.isNone then
            ({ s with initParams := some params }, .reply id (initializeResult config params))
          else if method = "initialize" && s.initParams.isNone && s.modern.isNone then
            ({ s with initParams := some params }, .delegate)
          else handleRequest config native s method id (message.get "params")
      | some method, none =>
          if method = "notifications/initialized" && !s.booted then
            ({ s with initialized := true }, .drop)
          else (s, .forward)
      | none, _ => (s, .forward)

/-! ## What a line asks for -/

def requestId (line : Option Json) : Option Json :=
  line.bind fun message => (message.getStr "method").bind fun _ => message.get "id"

/-- How a client opens its session. -/
inductive Opening where
  | handshake (params : Json)
  | modern (envelope : Json)

/-- An `initialize` request, or a request in the envelope of the 2026-07-28 revision. -/
def opens (line : Option Json) : Option Opening :=
  line.bind fun message => (message.getStr "method").bind fun method =>
    (message.get "id").bind fun _ =>
      if method = "initialize" then
        some (.handshake ((message.get "params").getD .null))
      else if envelopeVersion (message.get "params") = some (some modernProtocolVersion) then
        ((message.get "params").bind fun p => p.get "_meta").map .modern
      else none

/-- An `initialize` request. -/
def isInitialize (line : Option Json) : Bool :=
  line.any fun message => message.getStr "method" == some "initialize" && (message.get "id").isSome

/-- The tool a `tools/call` request names. -/
def calledTool (line : Option Json) : Option String :=
  line.bind fun message =>
    if message.getStr "method" = some "tools/call" ∧ (message.get "id").isSome then
      (message.get "params").bind fun params => params.getStr "name"
    else none

def Session.opening : Option Opening :=
  match s.modern, s.initParams with
  | some envelope, _ => some (.modern envelope)
  | none, some params => some (.handshake params)
  | none, none => none

theorem answerOrDelegate_cases (id : Json) (result : Option Json) :
    (∃ r, answerOrDelegate id result = .reply id r) ∨ answerOrDelegate id result = .delegate := by
  cases result with
  | none => exact .inr rfl
  | some r => exact .inl ⟨r, rfl⟩

theorem handleRequest_response (method : String) (id : Json) (params : Option Json) :
    (∃ r, (handleRequest config native s method id params).2 = .reply id r) ∨
      (handleRequest config native s method id params).2 = .delegate := by
  unfold handleRequest
  split
  · split
    · exact answerOrDelegate_cases id _
    · exact .inr rfl
  · exact answerOrDelegate_cases id _

theorem handleRequest_booted (method : String) (id : Json) (params : Option Json) :
    (handleRequest config native s method id params).1.booted = s.booted := by
  unfold handleRequest
  split
  · split
    · dsimp only
      split <;> rfl
    · rfl
  · rfl

section Handle

variable {message id : Json} {method : String}

theorem handle_request (hm : message.getStr "method" = some method)
    (hid : message.get "id" = some id) :
    handle config native s (some message) =
      let params := (message.get "params").getD .null
      if method = "initialize" && s.initParams.isNone && !s.booted && s.modern.isNone then
        ({ s with initParams := some params }, .reply id (initializeResult config params))
      else if method = "initialize" && s.initParams.isNone && s.modern.isNone then
        ({ s with initParams := some params }, .delegate)
      else handleRequest config native s method id (message.get "params") := by
  unfold handle
  simp only [hm, hid]

theorem handle_notification (hm : message.getStr "method" = some method)
    (hid : message.get "id" = none) :
    handle config native s (some message) =
      if method = "notifications/initialized" && !s.booted then
        ({ s with initialized := true }, .drop)
      else (s, .forward) := by
  unfold handle
  simp only [hm, hid]

theorem handle_other (hm : message.getStr "method" = none) :
    handle config native s (some message) = (s, .forward) := by
  unfold handle
  simp only [hm]

end Handle

theorem handle_cases (line : Option Json) :
    (∃ id result, requestId line = some id ∧
        (handle config native s line).2 = .reply id result) ∨
      (handle config native s line).2 = .delegate ∨
      (requestId line = none ∧ ((handle config native s line).2 = .forward ∨
        (handle config native s line).2 = .drop)) := by
  cases line with
  | none => exact .inr (.inl rfl)
  | some message =>
      cases hm : message.getStr "method" with
      | none =>
          rw [handle_other config native s hm]
          exact .inr (.inr ⟨by simp [requestId, hm], .inl rfl⟩)
      | some method =>
          cases hid : message.get "id" with
          | none =>
              rw [handle_notification config native s hm hid]
              refine .inr (.inr ⟨by simp [requestId, hm, hid], ?_⟩)
              split
              · exact .inr rfl
              · exact .inl rfl
          | some id =>
              have hreq : requestId (some message) = some id := by simp [requestId, hm, hid]
              rw [handle_request config native s hm hid]
              dsimp only
              split
              · exact .inl ⟨id, _, hreq, rfl⟩
              · split
                · exact .inr (.inl rfl)
                · rcases handleRequest_response config native s method id (message.get "params")
                    with ⟨r, hr⟩ | hd
                  · exact .inl ⟨id, r, hreq, hr⟩
                  · exact .inr (.inl hd)

theorem handle_booted (line : Option Json) :
    (handle config native s line).1.booted = s.booted := by
  cases line with
  | none => rfl
  | some message =>
      unfold handle
      dsimp only
      split
      · split
        · rfl
        · split
          · rfl
          · exact handleRequest_booted config native s _ _ _
      · split <;> rfl
      · rfl

/-! ### The opening -/

theorem envelope_of_version {params : Option Json} {version : Option String}
    (h : envelopeVersion params = some version) :
    ∃ envelope, (params.bind fun p => p.get "_meta") = some envelope := by
  unfold envelopeVersion at h
  obtain ⟨envelope, henv, -⟩ := Option.bind_eq_some_iff.mp h
  exact ⟨envelope, henv⟩

theorem handleRequest_opening {method : String} {id : Json} {params : Option Json}
    (hb : s.booted = false) :
    (handleRequest config native s method id params).1.opening =
      s.opening.or (if envelopeVersion params = some (some modernProtocolVersion) then
        (params.bind fun p => p.get "_meta").map .modern else none) := by
  unfold handleRequest
  cases hv : envelopeVersion params with
  | none => simp
  | some version =>
      dsimp only
      cases hm : s.modern with
      | some envelope =>
          have hopen : s.opening = some (.modern envelope) := by simp [Session.opening, hm]
          rw [hopen, Option.some_or]
          split
          · simp [Session.opening, hm]
          · exact hopen
      | none =>
          cases hi : s.initParams with
          | some p =>
              have hopen : s.opening = some (.handshake p) := by simp [Session.opening, hm, hi]
              simp [hopen]
          | none =>
              have hopen : s.opening = none := by simp [Session.opening, hm, hi]
              obtain ⟨envelope, henv⟩ := envelope_of_version hv
              rw [hopen, Option.none_or, henv]
              by_cases hver : version = some modernProtocolVersion
              · simp [hver, hb, Session.opening]
              · simp [hver, hopen]

theorem handle_opening (line : Option Json) (hb : s.booted = false) :
    (handle config native s line).1.opening = s.opening.or (opens line) := by
  cases line with
  | none => simp [handle, opens]
  | some message =>
      cases hm : message.getStr "method" with
      | none =>
          rw [handle_other config native s hm]
          simp [opens, hm]
      | some method =>
          cases hid : message.get "id" with
          | none =>
              rw [handle_notification config native s hm hid]
              split <;> simp [opens, hm, hid, Session.opening]
          | some id =>
              rw [handle_request config native s hm hid]
              dsimp only
              by_cases hinit : method = "initialize"
              · have hopens : opens (some message)
                    = some (.handshake ((message.get "params").getD .null)) := by
                  simp [opens, hm, hid, hinit]
                rw [hopens]
                cases hmod : s.modern with
                | some envelope =>
                    have hopen : s.opening = some (.modern envelope) := by
                      simp [Session.opening, hmod]
                    rw [if_neg (by simp), if_neg (by simp),
                      handleRequest_opening config native s hb,
                      hopen, Option.some_or, Option.some_or]
                | none =>
                    cases hip : s.initParams with
                    | some p =>
                        have hopen : s.opening = some (.handshake p) := by
                          simp [Session.opening, hmod, hip]
                        rw [if_neg (by simp), if_neg (by simp),
                          handleRequest_opening config native s hb, hopen, Option.some_or,
                          Option.some_or]
                    | none =>
                        have hopen : s.opening = none := by simp [Session.opening, hmod, hip]
                        rw [if_pos (by simp [hinit, hb]), hopen, Option.none_or]
                        simp [Session.opening]
              · have hopens : opens (some message)
                    = if envelopeVersion (message.get "params") = some (some modernProtocolVersion)
                      then ((message.get "params").bind fun p => p.get "_meta").map .modern
                      else none := by
                  simp [opens, hm, hid, hinit]
                rw [if_neg (by simp [hinit]), if_neg (by simp [hinit]),
                  handleRequest_opening config native s hb, hopens]

theorem opens_handshake {line : Option Json} {params : Json}
    (h : opens line = some (.handshake params)) :
    ∃ message id, line = some message ∧ message.getStr "method" = some "initialize" ∧
      message.get "id" = some id ∧ params = (message.get "params").getD .null := by
  cases line with
  | none => exact absurd h (by simp [opens])
  | some message =>
      obtain ⟨method, hm, h'⟩ := Option.bind_eq_some_iff.mp (show
        ((message.getStr "method").bind _) = some (Opening.handshake params) from h)
      obtain ⟨id, hid, h''⟩ := Option.bind_eq_some_iff.mp h'
      split at h''
      · rename_i hinit
        cases h''
        exact ⟨message, id, rfl, by rw [hm, hinit], hid, rfl⟩
      · split at h''
        · obtain ⟨envelope, -, habs⟩ := Option.map_eq_some_iff.mp h''
          exact absurd habs (by simp)
        · exact absurd h'' (by simp)

theorem isInitialize_of_opens {line : Option Json} {params : Json}
    (h : opens line = some (.handshake params)) : isInitialize line = true := by
  obtain ⟨message, id, rfl, hm, hid, -⟩ := opens_handshake h
  simp [isInitialize, hm, hid]

theorem opening_eq_none : s.opening = none ↔ s.modern = none ∧ s.initParams = none := by
  unfold Session.opening
  split <;> simp_all

theorem handle_first_init {line : Option Json} {params : Json} (hb : s.booted = false)
    (hopen : s.opening = none) (hline : opens line = some (.handshake params)) :
    (handle config native s line).2 ≠ .delegate := by
  obtain ⟨message, id, rfl, hm, hid, -⟩ := opens_handshake hline
  obtain ⟨hmod, hip⟩ := (opening_eq_none s).mp hopen
  rw [handle_request config native s hm hid]
  dsimp only
  rw [if_pos (by simp [hb, hmod, hip])]
  exact Response.noConfusion

/-! ### Native writers -/

theorem nativeAnswer_writer {params : Json} {name : String} (hb : s.booted = true)
    (hname : params.getStr "name" = some name) (hwrites : native.writesGraph name = true) :
    nativeAnswer config native s (some params) = none := by
  unfold nativeAnswer
  cases params with
  | obj fields =>
      have hlookup : (fields.lookup "name").bind Json.asStr = some name := hname
      show (if _ then _ else ((fields.lookup "name").bind Json.asStr).bind _) = none
      split
      · rfl
      · rw [hlookup, Option.bind_some]
        simp [hb, hwrites]
  | null => rfl
  | bool b => rfl
  | int n => rfl
  | float x => rfl
  | str t => rfl
  | arr items => rfl

theorem handle_writer {line : Option Json} {name : String} (hb : s.booted = true)
    (hname : calledTool line = some name) (hwrites : native.writesGraph name = true) :
    (handle config native s line).2 = .delegate := by
  cases line with
  | none => rfl
  | some message =>
      rw [calledTool, Option.bind_some] at hname
      split at hname
      · rename_i hcall
        obtain ⟨hm, hsome⟩ := hcall
        obtain ⟨id, hid⟩ := Option.isSome_iff_exists.mp hsome
        obtain ⟨params, hparams, hname⟩ := Option.bind_eq_some_iff.mp hname
        rw [handle_request config native s hm hid, hparams]
        dsimp only
        rw [if_neg (by simp), if_neg (by simp)]
        unfold handleRequest
        split
        · split
          · -- the envelope of an open session, whose tools are native too
            dsimp only
            have hanswer : ∀ s' : Session, s'.booted = true →
                modernResult config native s' "tools/call" (some params) = none := by
              intro s' hb'
              unfold modernResult
              simp [nativeAnswer_writer config native s' hb' hname hwrites]
            rw [hanswer _ (by split <;> exact hb)]
            rfl
          · rfl
        · dsimp only
          rw [if_pos rfl]
          unfold nativeCall
          rw [nativeAnswer_writer config native s hb hname hwrites]
          split <;> rfl
      · exact absurd hname (by simp)

end Mcp

end Dagayn
