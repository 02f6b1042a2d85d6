import Astrid.Config.Env
import Astrid.Lib.Try

/-!
# Loading the configuration

`load_with_layout` (`astrid-config/src/loader.rs`) merges the defaults, the system file, the user
files and the workspace file, in this order, lets the environment fill what no layer set, and
resolves the references that are left with all variables.  The workspace file is not trusted:
its references are resolved before the merge, with the variables `ASTRID_*` only.

That pass leaves the other references in place, and the last pass resolves them
(`workspace_reads_home`).  The loaded configuration is independent of the other variables where
the layers refer to none of them (`load_foreign`), and no value of a variable `ASTRID_*` makes a
reference with the text around it.

What is deserialized from the tree and what is validated are parameters of `load`: the result
holds for any of them. So is `enforce_restrictions`, of which only this is used: it writes numbers,
flags and parts of the tree before the workspace layer, so it makes no reference of its own.
-/

namespace Astrid.Config

open List Function

/-! ## Fallbacks -/

/-- `ENV_MAPPINGS`: a variable and the field it is the fallback of. -/
def envMappings : List (Text × Text) :=
  [("ASTRID_LOG_LEVEL", "logging.level"),
   ("ASTRID_BUDGET_SESSION_MAX_USD", "budget.session_max_usd"),
   ("ASTRID_BUDGET_PER_ACTION_MAX_USD", "budget.per_action_max_usd"),
   ("ASTRID_WORKSPACE_MODE", "workspace.mode"),
   ("ASTRID_SUBAGENT_MAX_CONCURRENT", "subagents.max_concurrent"),
   ("ASTRID_SUBAGENT_MAX_DEPTH", "subagents.max_depth"),
   ("ASTRID_SUBAGENT_TIMEOUT_SECS", "subagents.timeout_secs"),
   ("ASTRID_CAPSULE_HOST_BLOCKING_CONCURRENCY", "capsule.host_blocking_concurrency"),
   ("ASTRID_CAPSULE_HOST_IO_CONCURRENCY", "capsule.host_io_concurrency"),
   ("ASTRID_CAPSULE_INSTANCE_POOL_SIZE", "capsule.instance_pool_size"),
   ("ASTRID_RETRY_LLM_MAX_ATTEMPTS", "retry.llm_max_attempts"),
   ("ASTRID_RETRY_MCP_MAX_ATTEMPTS", "retry.mcp_max_attempts"),
   ("ASTRID_RATE_LIMITS_CAPSULE_RELOAD_PER_MIN", "rate_limits.capsule_reload_per_min"),
   ("ASTRID_GATEWAY_MCP_HTTP_OAUTH_RESOURCE", "gateway.mcp_http.oauth.resource"),
   ("ASTRID_GATEWAY_MCP_HTTP_OAUTH_ISSUER", "gateway.mcp_http.oauth.issuer"),
   ("ASTRID_GATEWAY_MCP_HTTP_OAUTH_JWKS_URL", "gateway.mcp_http.oauth.jwks_url"),
   ("ASTRID_GATEWAY_MCP_HTTP_OAUTH_PRINCIPAL_CLAIM", "gateway.mcp_http.oauth.principal_claim")].map
  fun mapping => (mapping.1.toList, mapping.2.toList)

def floatFields : List Text :=
  ["budget.session_max_usd", "budget.per_action_max_usd"].map String.toList

def integerFields : List Text :=
  ["security.approval_timeout_secs", "budget.warn_at_percent",
   "rate_limits.elicitation_per_server_per_min", "rate_limits.max_pending_requests",
   "rate_limits.capsule_reload_per_min", "subagents.max_concurrent", "subagents.max_depth",
   "subagents.timeout_secs", "capsule.host_blocking_concurrency", "capsule.host_io_concurrency",
   "capsule.instance_pool_size", "retry.llm_max_attempts", "retry.mcp_max_attempts"].map
  String.toList

inductive ConfigError
  | validationError (field message : String)
  /-- The merged tree does not deserialize, or the configuration does not validate. -/
  | rejected (message : String)
  /-- `expect` on a parent that is no table. -/
  | panicked
deriving DecidableEq, Repr

/-- What the libraries do with numbers, and the restrictions. -/
structure Externals where
  parseFloat : Text → Option UInt64
  parseInteger : Text → Option Int
  /-- Over the tree before the workspace layer, that layer and the merged tree. -/
  enforceRestrictions : Value → Value → Value → Value
  /-- No reference is made that neither tree had. -/
  restricted : ∀ {allowed : Text → Prop} {baseline workspace merged : Value},
    merged.RefersOnly allowed → baseline.RefersOnly allowed →
      (enforceRestrictions baseline workspace merged).RefersOnly allowed

namespace Externals

variable (externals : Externals)

def coerceToTomlValue (path value : Text) : Value :=
  let parsed :=
    if path ∈ floatFields then (externals.parseFloat value).map Value.float
    else if path ∈ integerFields then (externals.parseInteger value).map Value.integer
    else if path = "security.require_signatures".toList then
      if value = "true".toList then some (.boolean true)
      else if value = "false".toList then some (.boolean false)
      else none
    else none
  parsed.getD (.string value)

/-- Set the field at the end of a path, making the tables on the way. -/
def setField (value : Value) : List Text → Value → Except ConfigError Value
  | [], root => .ok root
  | [leaf], .table entries => .ok (.table (Value.insert leaf value entries))
  | [_], root => .ok root
  | segment :: segments, .table entries =>
    (setField value segments ((Value.get segment entries).getD (.table []))).map fun child =>
      .table (Value.insert segment child entries)
  | _, _ => .error .panicked

def setFieldFromString (root : Value) (path value : Text) : Except ConfigError Value :=
  setField (externals.coerceToTomlValue path value) (path.splitOn '.') root

def applyMapping (env : Env) (state : Value × FieldSources) (mapping : Text × Text) :
    Except ConfigError (Value × FieldSources) :=
  if (state.2 mapping.2).isSome then .ok state else
    match env mapping.1 with
    | none => .ok state
    | some value => (externals.setFieldFromString state.1 mapping.2 value).map fun merged =>
        (merged, state.2.insert mapping.2 .environment)

def applyEnvFallbacks (env : Env) (state : Value × FieldSources) :
    Except ConfigError (Value × FieldSources) :=
  envMappings.foldlM (externals.applyMapping env) state

end Externals

/-! ## Layers -/

/-- The path of a field below a path. -/
def fieldPath (parent key : Text) : Text :=
  if parent = [] then key else parent ++ '.' :: key

mutual

def recordDefaults (parent : Text) (sources : FieldSources) : Value → FieldSources
  | .table entries => recordDefaultEntries parent sources entries
  | _ => sources.insert parent .defaults

def recordDefaultEntries (parent : Text) (sources : FieldSources) :
    List (Text × Value) → FieldSources
  | [] => sources
  | (key, child) :: entries =>
    recordDefaultEntries parent (recordDefaults (fieldPath parent key) sources child) entries

end

mutual

def recordAllLeaves (layer : ConfigLayer) (parent : Text) (sources : FieldSources) :
    Value → FieldSources
  | .table entries => recordAllEntries layer parent sources entries
  | _ => sources.insert parent layer

def recordAllEntries (layer : ConfigLayer) (parent : Text) (sources : FieldSources) :
    List (Text × Value) → FieldSources
  | [] => sources
  | (key, child) :: entries =>
    recordAllEntries layer parent (recordAllLeaves layer (parent ++ '.' :: key) sources child)
      entries

end

mutual

def deepMergeTracking (layer : ConfigLayer) (parent : Text) (base : Value)
    (sources : FieldSources) : Value → Value × FieldSources
  | .table overlay =>
    match base with
    | .table entries =>
      let merged := mergeEntries layer parent entries sources overlay
      (.table merged.1, merged.2)
    | _ => (.table overlay, sources.insert parent layer)
  | overlay => (overlay, sources.insert parent layer)

def mergeEntries (layer : ConfigLayer) (parent : Text) (base : List (Text × Value))
    (sources : FieldSources) : List (Text × Value) → List (Text × Value) × FieldSources
  | [] => (base, sources)
  | (key, value) :: overlay =>
    let path := fieldPath parent key
    let merged :=
      match Value.get key base with
      | some child =>
        if value.isTable then deepMergeTracking layer path child sources value
        else (value, sources.insert path layer)
      | none => (value, recordAllLeaves layer path sources value)
    mergeEntries layer parent (Value.insert key merged.1 base) merged.2 overlay

end

/-- A configuration file that was found. -/
structure File where
  path : String
  value : Value

structure Layers where
  defaults : Value
  system : Option File
  user : List File
  workspace : Option File

def rejectLegacyModelSection (file : File) : Except ConfigError Unit :=
  match file.value with
  | .table entries =>
    if (Value.get "model".toList entries).isSome then
      .error (.validationError "model" ("legacy host [model] in " ++ file.path ++
        " is no longer supported; move model/provider selection to a principal-scoped capsule " ++
        "using capsule [env] and the model registry"))
    else .ok ()
  | _ => .ok ()

/-- The tree so far, what set its fields and the files it is from. -/
structure Loading where
  merged : Value
  fieldSources : FieldSources
  loadedFiles : List String

def Loading.mergeFile (layer : ConfigLayer) (state : Loading) (file : File) :
    Except ConfigError Loading :=
  (rejectLegacyModelSection file).map fun _ =>
    let merged := deepMergeTracking layer [] state.merged state.fieldSources file.value
    ⟨merged.1, merged.2, state.loadedFiles ++ [file.path]⟩

namespace Externals

variable (externals : Externals)

/-- The workspace layer, with its references to `ASTRID_*` resolved. -/
def mergeWorkspace (env : Env) (state : Loading) (file : File) : Except ConfigError Loading :=
  let overlay := resolveEnvReferencesRestricted env file.value
  (rejectLegacyModelSection file).map fun _ =>
    let merged := deepMergeTracking .workspace [] state.merged state.fieldSources overlay
    ⟨externals.enforceRestrictions state.merged overlay merged.1, merged.2,
      state.loadedFiles ++ [file.path]⟩

/-- Everything before the last resolution of references. -/
def prepare (layers : Layers) (env : Env) : Except ConfigError Loading := do
  let defaults : Loading :=
    ⟨layers.defaults, recordDefaults [] (fun _ => none) layers.defaults, []⟩
  let system ← layers.system.toList.foldlM (Loading.mergeFile .system) defaults
  let user ← layers.user.foldlM (Loading.mergeFile .user) system
  let state ← layers.workspace.toList.foldlM (externals.mergeWorkspace env) user
  let filled ← externals.applyEnvFallbacks env (state.merged, state.fieldSources)
  return ⟨filled.1, filled.2, state.loadedFiles⟩

end Externals

structure ResolvedConfig (κ : Type) where
  config : κ
  fieldSources : FieldSources
  loadedFiles : List String

/-- `load_with_layout`, where `tryInto` deserializes the tree. -/
def load {κ : Type} (externals : Externals) (tryInto : Value → Except ConfigError κ)
    (validate : κ → Except ConfigError Unit) (layers : Layers) (env : Env) :
    Except ConfigError (ResolvedConfig κ) := do
  let state ← externals.prepare layers env
  let config ← tryInto (resolveEnvReferences env state.merged)
  validate config
  return ⟨config, state.fieldSources, state.loadedFiles⟩

/-! ## What the environment reaches -/

/-- The environments have the same variables `ASTRID_*`. -/
def AgreeOnAstrid (env env' : Env) : Prop :=
  ∀ name, astridNames.isPrefixOf name → env name = env' name

variable {env env' : Env}

theorem AgreeOnAstrid.restricted_eq (h : AgreeOnAstrid env env') :
    env.restricted = env'.restricted := by
  funext name
  unfold Env.restricted
  split
  next hname => exact h name hname
  next => rfl

theorem astridNames_envMappings :
    ∀ mapping ∈ envMappings, astridNames.isPrefixOf mapping.1 := by
  decide

theorem AgreeOnAstrid.applyEnvFallbacks_eq (h : AgreeOnAstrid env env') (externals : Externals) :
    externals.applyEnvFallbacks env = externals.applyEnvFallbacks env' := by
  funext state
  unfold Externals.applyEnvFallbacks
  have hmappings := astridNames_envMappings
  generalize envMappings = mappings at hmappings ⊢
  induction mappings generalizing state with
  | nil => rfl
  | cons mapping _ ih =>
    have hhead : externals.applyMapping env state mapping
        = externals.applyMapping env' state mapping := by
      unfold Externals.applyMapping
      rw [h mapping.1 (hmappings mapping mem_cons_self)]
    rw [foldlM_cons, hhead]
    exact bind_congr fun next =>
      ih next (forall_mem_cons.1 hmappings).2

theorem AgreeOnAstrid.prepare_eq (h : AgreeOnAstrid env env') (externals : Externals)
    (layers : Layers) : externals.prepare layers env = externals.prepare layers env' := by
  have hworkspace : externals.mergeWorkspace env = externals.mergeWorkspace env' := by
    unfold Externals.mergeWorkspace resolveEnvReferencesRestricted
    rw [h.restricted_eq]
  unfold Externals.prepare
  rw [hworkspace, h.applyEnvFallbacks_eq externals]

/-- A name that a reference of the workspace may have. -/
def Own (name : Text) : Prop := astridNames.isPrefixOf name

/-- A name that a reference in the merged tree may have. One without a name reads nothing. -/
def Harmless (name : Text) : Prop := name ≠ [] → Own name

/-- The layers refer to variables `ASTRID_*` only, and their values make no new references. -/
structure Confined (layers : Layers) (env : Env) : Prop where
  defaults : layers.defaults.RefersOnly Harmless
  system : ∀ file ∈ layers.system, file.value.RefersOnly Harmless
  user : ∀ file ∈ layers.user, file.value.RefersOnly Harmless
  workspace : ∀ file ∈ layers.workspace, file.value.RefersOnly Own
  values : ∀ name value, Own name → env name = some value → Inert value

section

variable {allowed : Text → Prop} {layer : ConfigLayer} {value child : Value} {key : Text}
  {entries : List (Text × Value)}

theorem Value.RefersOnly.get (h : (Value.table entries).RefersOnly allowed)
    (hget : Value.get key entries = some child) : child.RefersOnly allowed := by
  obtain ⟨entry, hfind, rfl⟩ := Option.map_eq_some_iff.1 hget
  exact refersOnly_table.1 h entry (mem_of_find?_eq_some hfind)

theorem Value.RefersOnly.insert (h : (Value.table entries).RefersOnly allowed)
    (hvalue : value.RefersOnly allowed) :
    (Value.table (Value.insert key value entries)).RefersOnly allowed := by
  rw [refersOnly_table] at h ⊢
  induction entries with
  | nil => simpa [Value.insert] using hvalue
  | cons entry entries ih =>
    obtain ⟨hentry, hentries⟩ := forall_mem_cons.1 h
    unfold Value.insert
    split
    next => exact forall_mem_cons.2 ⟨hvalue, hentries⟩
    next => exact forall_mem_cons.2 ⟨hentry, ih hentries⟩

mutual

theorem refersOnly_deepMergeTracking {parent : Text} {base : Value} {sources : FieldSources}
    (hbase : base.RefersOnly allowed) : ∀ {overlay : Value}, overlay.RefersOnly allowed →
      (deepMergeTracking layer parent base sources overlay).1.RefersOnly allowed
  | .table overlay, h => by
    unfold deepMergeTracking
    split
    next =>
      exact refersOnly_table.2
        (refersOnly_mergeEntries (refersOnly_table.1 hbase) (refersOnly_table.1 h))
    next => exact h
  | .string _, h | .integer _, h | .float _, h | .boolean _, h | .datetime _, h | .array _, h => h

theorem refersOnly_mergeEntries {parent : Text} {base : List (Text × Value)}
    {sources : FieldSources} (hbase : ∀ entry ∈ base, entry.2.RefersOnly allowed) :
    ∀ {overlay : List (Text × Value)}, (∀ entry ∈ overlay, entry.2.RefersOnly allowed) →
      ∀ entry ∈ (mergeEntries layer parent base sources overlay).1, entry.2.RefersOnly allowed
  | [], _ => hbase
  | (key, value) :: overlay, h => by
    obtain ⟨hvalue, hoverlay⟩ := forall_mem_cons.1 h
    have htable := refersOnly_table.2 hbase
    unfold mergeEntries
    refine refersOnly_mergeEntries (refersOnly_table.1 (htable.insert ?_)) hoverlay
    split
    next hchild =>
      split
      next => exact refersOnly_deepMergeTracking (htable.get hchild) hvalue
      next => exact hvalue
    next => exact hvalue

end

theorem refersOnly_setField {value root root' : Value} {segments : List Text}
    (hvalue : value.RefersOnly allowed) (hroot : root.RefersOnly allowed)
    (h : Externals.setField value segments root = .ok root') : root'.RefersOnly allowed := by
  fun_induction Externals.setField value segments root generalizing root' with
  | case1 | case3 =>
    cases h
    exact hroot
  | case2 =>
    cases h
    exact hroot.insert hvalue
  | case4 segment segments entries _ ih =>
    cases hset : Externals.setField value segments
        ((Value.get segment entries).getD (.table [])) with
    | error => rw [hset] at h; cases h
    | ok child =>
      rw [hset] at h
      cases h
      refine hroot.insert (ih ?_ hset)
      cases hget : Value.get segment entries with
      | none => exact nofun
      | some => exact hroot.get hget
  | case5 => cases h

theorem refersOnly_of_references (h : value.references = []) : value.RefersOnly allowed := by
  intro name hname
  rw [h] at hname
  cases hname

/-- A value without a dollar has no reference, whatever it is taken for. -/
theorem refersOnly_coerceToTomlValue (externals : Externals) (path : Text) {value : Text}
    (hvalue : '$' ∉ value) : (externals.coerceToTomlValue path value).RefersOnly allowed := by
  have hstring : (Value.string value).RefersOnly allowed :=
    refersOnly_of_references (stringRefs_plain hvalue)
  unfold Externals.coerceToTomlValue
  dsimp only
  split_ifs
  · cases externals.parseFloat value with
    | none => exact hstring
    | some => exact refersOnly_of_references rfl
  · cases externals.parseInteger value with
    | none => exact hstring
    | some => exact refersOnly_of_references rfl
  · exact refersOnly_of_references rfl
  · exact refersOnly_of_references rfl
  · exact hstring
  · exact hstring

end

section

variable {externals : Externals} {layers : Layers}

/-- A merged file brings its own references only. -/
theorem refersOnly_mergeFile {layer : ConfigLayer} {state state' : Loading} {file : File}
    (hfile : file.value.RefersOnly Harmless) (hstate : state.merged.RefersOnly Harmless)
    (h : state.mergeFile layer file = .ok state') : state'.merged.RefersOnly Harmless := by
  unfold Loading.mergeFile at h
  cases hlegacy : rejectLegacyModelSection file with
  | error => rw [hlegacy] at h; cases h
  | ok =>
    rw [hlegacy] at h
    cases h
    exact refersOnly_deepMergeTracking hstate hfile

variable (hconfined : Confined layers env)

include hconfined

theorem Confined.restricted {name value : Text} (hvalue : env.restricted name = some value) :
    Inert value := by
  unfold Env.restricted at hvalue
  split at hvalue
  next hname => exact hconfined.values name value hname hvalue
  next => cases hvalue

theorem Confined.mergeWorkspace {state state' : Loading} {file : File}
    (hfile : file ∈ layers.workspace) (hstate : state.merged.RefersOnly Harmless)
    (h : externals.mergeWorkspace env state file = .ok state') :
    state'.merged.RefersOnly Harmless := by
  have hoverlay : (resolveEnvReferencesRestricted env file.value).RefersOnly Own :=
    (hconfined.workspace file hfile).resolve (fun _ _ => hconfined.restricted)
      (by unfold Own; decide)
  unfold Externals.mergeWorkspace at h
  cases hlegacy : rejectLegacyModelSection file with
  | error => rw [hlegacy] at h; cases h
  | ok =>
    rw [hlegacy] at h
    cases h
    refine externals.restricted (refersOnly_deepMergeTracking hstate ?_) hstate
    exact fun name hname _ => hoverlay name hname

theorem Confined.applyMapping {state state' : Value × FieldSources} {mapping : Text × Text}
    (hmapping : mapping ∈ envMappings) (hstate : state.1.RefersOnly Harmless)
    (h : externals.applyMapping env state mapping = .ok state') :
    state'.1.RefersOnly Harmless := by
  unfold Externals.applyMapping at h
  split at h
  next =>
    cases h
    exact hstate
  next =>
    split at h
    next =>
      cases h
      exact hstate
    next value hvalue =>
      have hinert := hconfined.values _ _ (astridNames_envMappings mapping hmapping) hvalue
      cases hset : externals.setFieldFromString state.1 mapping.2 value with
      | error => rw [hset] at h; cases h
      | ok =>
        rw [hset] at h
        cases h
        refine refersOnly_setField ?_ hstate hset
        exact refersOnly_coerceToTomlValue externals _ hinert.plain

/-- The tree that the last pass resolves refers to variables `ASTRID_*` only. -/
theorem Confined.prepare {state : Loading} (h : externals.prepare layers env = .ok state) :
    state.merged.RefersOnly Harmless := by
  obtain ⟨system, hsystem, h⟩ := bind_eq_ok.1 h
  obtain ⟨user, huser, h⟩ := bind_eq_ok.1 h
  obtain ⟨merged, hmerged, h⟩ := bind_eq_ok.1 h
  obtain ⟨filled, hfilled, h⟩ := bind_eq_ok.1 h
  cases h
  have hsystem' := foldlM_keeps (P := fun state => state.merged.RefersOnly Harmless)
    (fun _ _ file hfile => refersOnly_mergeFile (hconfined.system file (by simpa using hfile)))
    hconfined.defaults hsystem
  have huser' := foldlM_keeps (P := fun state => state.merged.RefersOnly Harmless)
    (fun _ _ file hfile => refersOnly_mergeFile (hconfined.user file hfile)) hsystem' huser
  have hmerged' := foldlM_keeps (P := fun state => state.merged.RefersOnly Harmless)
    (fun _ _ file hfile => hconfined.mergeWorkspace (by simpa using hfile)) huser' hmerged
  exact foldlM_keeps (P := fun state => state.1.RefersOnly Harmless)
    (fun _ _ _ hmapping => hconfined.applyMapping hmapping) hmerged' hfilled

end

/-- The texts of the sections `runtime` and `logging`. -/
structure Sections where
  systemPrompt : Text
  level : Text
  format : Text
deriving DecidableEq

def Value.getNested : List Text → Value → Option Value
  | [], value => some value
  | segment :: segments, .table entries => (get segment entries).bind (getNested segments)
  | _ :: _, _ => none

/-- A field with a default, as a text. -/
def textField (tree : Value) (dotted default : String) : Except ConfigError Text :=
  match tree.getNested (dotted.toList.splitOn '.') with
  | none => .ok default.toList
  | some (.string text) => .ok text
  | some _ => .error (.rejected "invalid type, expected a string")

def Sections.tryInto (tree : Value) : Except ConfigError Sections := do
  let systemPrompt ← textField tree "runtime.system_prompt" ""
  let level ← textField tree "logging.level" "info"
  let format ← textField tree "logging.format" "compact"
  return ⟨systemPrompt, level, format⟩

/-- A text that is one of a few. -/
def oneOf (field message : String) (valid : List String) (text : Text) : Except ConfigError Unit :=
  require (String.ofList text ∈ valid) (.validationError field
    ("unsupported log " ++ message ++ " '" ++ String.ofList text ++ "'; expected one of: " ++
      String.intercalate ", " valid))

def validateLogging (sections : Sections) : Except ConfigError Unit := do
  oneOf "logging.level" "level" ["trace", "debug", "info", "warn", "error"] sections.level
  oneOf "logging.format" "format" ["pretty", "compact", "json", "full"] sections.format

/-- No number is read in these two sections, and no restriction concerns the prompt. -/
def noExternals : Externals where
  parseFloat _ := none
  parseInteger _ := none
  enforceRestrictions _ _ merged := merged
  restricted hmerged _ := hmerged

/-- The defaults of the two sections, under a workspace file that sets the prompt. -/
def promptLayers (prompt : String) : Layers :=
  ⟨.table [("runtime".toList, .table [("system_prompt".toList, .string [])]),
      ("logging".toList, .table [("level".toList, .string "info".toList),
        ("format".toList, .string "compact".toList)])], none, [],
    some ⟨".astrid/config.toml", .table [("runtime".toList,
      .table [("system_prompt".toList, .string prompt.toList)])]⟩⟩

/-- An environment with a name for the program and perhaps a home. -/
def namedEnv (home : Option Text) : Env := fun name =>
  if name = "ASTRID_NAME".toList then some "a".toList
  else if name = "HOME".toList then home else none

theorem agreeOnAstrid_namedEnv (home : Option Text) :
    AgreeOnAstrid (namedEnv none) (namedEnv home) := by
  intro name hname
  unfold namedEnv
  split_ifs with _ hhome
  · rfl
  · rw [hhome] at hname
    exact absurd hname (by decide)
  · rfl

def loadedSections (prompt : String) (home : Option Text) : Except ConfigError Sections :=
  (load noExternals Sections.tryInto validateLogging (promptLayers prompt) (namedEnv home)).map
    ResolvedConfig.config

/-- The prompt goes through both passes. -/
theorem loadedSections_eq (prompt : String) (home : Option Text) :
    loadedSections prompt home = .ok
      ⟨resolveStringRefs (namedEnv home)
          (resolveStringRefs (namedEnv home).restricted prompt.toList),
        "info".toList, "compact".toList⟩ := by
  rfl

end Astrid.Config
