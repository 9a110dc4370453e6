/-
# The configuration of the collector

`load_config` of `config.py`: the file, the keys of its mappings, the paths, the address and the limits.  Paths
are those of the file system, a parameter: what is absolute, how two are joined and what `resolve` makes of one
or raises.  So is what reading and parsing a file gives or raises.

What is loaded can be written as a configuration that leaves nothing out and has absolute paths, and that
is loaded to the same from anywhere (`load_dump`).  Besides `ConfigError`, `load_config` raises what `resolve`
raises for the file or for a relative path, what reading and parsing raises and it does not catch, and
`OverflowError` for a time limit that is too large for a float; nothing else (`load_raises`).
-/

import Mathlib.Data.List.TakeWhile
import Vestrix.Raises
import Vestrix.Rounding.Exact
import Vestrix.Soc.Alert

namespace Vestrix
namespace Collector
namespace Config

open Text Outcome Python Rounding

/-! ### Documents -/

/-- What `yaml.safe_load` returns. -/
inductive Document where
  | atom (a : Atom)
  | list (xs : List Document)
  | dict (members : List (Document × Document))
  /-- A date, bytes or a set. -/
  | other

/-- A dictionary with strings for its keys. -/
abbrev Mapping := List (Str × Document)

/-- The exceptions of the path library, of reading a file and of the YAML library. -/
inductive LibraryError where
  | osError
  | yamlError
  | valueError
  | unicodeEncodeError
  | unicodeDecodeError
  | runtimeError
  | recursionError
  | other
deriving DecidableEq

/-- The texts of `ConfigError`, and the other exceptions. -/
inductive LoadError where
  | notLoaded
  | notMapping (name : Str)
  | unknownKeys (name : Str) (keys : List Str)
  | missingKeys (name : Str) (keys : List Str)
  | notPath (name : Str)
  | notPositiveNumber (name : Str)
  | notPositiveInteger (name : Str)
  | host
  | port
  | overflowError
  | keyError (key : Str)
  | library (exception : LibraryError)
deriving DecidableEq

/-- What `load_config` makes of an exception of `yaml.safe_load(path.read_text())`. -/
def notLoaded : LibraryError → LoadError
  | .osError | .yamlError => .notLoaded
  | exception => .library exception

/-- A key that is a string. -/
def Document.str? : Document → Option Str
  | .atom (.str s) => some s
  | _ => none

/-- The items of a dictionary, if all its keys are strings. -/
def strKeys (members : List (Document × Document)) : Option Mapping :=
  members.mapM fun m => m.1.str?.map fun key => (key, m.2)

/-- `_mapping`. -/
def mapping (value : Document) (name : Str) : Except LoadError Mapping :=
  match value with
  | .dict members => orError (.notMapping name) (strKeys members)
  | _ => .error (.notMapping name)

/-- The check for keys that are unknown and then for those that are missing. -/
def checkKeys (data : Mapping) (required optional : List Str) (name : Str) : Except LoadError Unit := do
  let unknown := (data.map Prod.fst).filter (· ∉ required ++ optional)
  let missing := required.filter (· ∉ data.map Prod.fst)
  require (unknown = []) (.unknownKeys name (Forensics.sortedFields unknown))
  require (missing = []) (.missingKeys name (Forensics.sortedFields missing))

/-- `_exact_keys`. -/
def exactKeys (data : Mapping) (expected : List Str) (name : Str) : Except LoadError Unit :=
  checkKeys data expected [] name

/-- What a dictionary with strings for its keys has under one. -/
def Document.get? : Document → Str → Option Document
  | .dict members, key => (strKeys members).bind fun data => data.lookup key
  | _, _ => none

/-- `data[key]`. -/
def fetch (data : Mapping) (key : Str) : Except LoadError Document :=
  orError (.keyError key) (data.lookup key)

/-- `data.get(key, default)`. -/
def getD (data : Mapping) (key : Str) (default : Document) : Document := (data.lookup key).getD default

/-! ### Values -/

/-- A string that is not blank. -/
def Document.text? : Document → Option Str
  | .atom (.str s) => if Soc.strip s ≠ [] then some s else none
  | _ => none

/-- The paths of the file system. -/
structure Paths (P : Type) where
  /-- `Path(value)`. -/
  ofStr : Str → P
  /-- `str(path)`. -/
  text : P → Str
  /-- `is_absolute`. -/
  isAbsolute : P → Bool
  /-- `base / path`. -/
  join : P → P → P
  /-- `parent`. -/
  parent : P → P
  /-- `resolve`, which may raise for a null character, a lone surrogate or a loop of symbolic links. -/
  resolve : P → Except LibraryError P

/-- `value <= 0`, of a float. -/
def leZero : Float64 → Bool
  | .finite x => x.negative || x.index == 0
  | .infinite negative => negative
  | .nan => false

/-- `float(value)`, of a positive integer. -/
def floatOfInt (n : ℤ) : Except LoadError Float64 :=
  if h : nearest n.natAbs 1 < infinite then .ok (.finite ⟨false, _, h⟩) else .error .overflowError

/-- `_positive_float`. -/
def positiveFloat (value : Document) (name : Str) : Except LoadError Float64 :=
  match value with
  | .atom (.int n) => if n ≤ 0 then .error (.notPositiveNumber name) else floatOfInt n
  | .atom (.float x) => if leZero x then .error (.notPositiveNumber name) else .ok x
  | _ => .error (.notPositiveNumber name)

/-- `_positive_int`. -/
def positiveInt (value : Document) (name : Str) : Except LoadError ℕ :=
  match value with
  | .atom (.int n) => if n ≤ 0 then .error (.notPositiveInteger name) else .ok n.toNat
  | _ => .error (.notPositiveInteger name)

/-- The check of the port. -/
def checkPort (value : Document) : Except LoadError ℕ :=
  match value with
  | .atom (.int n) => if 1 ≤ n ∧ n ≤ 65535 then .ok n.toNat else .error .port
  | _ => .error .port

/-! ### The configuration -/

/-- `TLSConfig`. -/
structure TLSConfig (P : Type) where
  caCert : P
  crlPath : P
  serverCert : P
  serverKey : P

/-- `ServerConfig`. -/
structure ServerConfig where
  host : Str
  port : ℕ
  handshakeTimeoutSeconds : Float64
  readTimeoutSeconds : Float64
  maxPayloadBytes : ℕ

/-- `CollectorConfig`. -/
structure CollectorConfig (P : Type) where
  tls : TLSConfig P
  allowlistPath : P
  server : ServerConfig

/-- The bits of the default time limit, 10.0, are those of a finite number. -/
theorem ten_finite : 0x4024000000000000 < infinite := by
  unfold infinite
  omega

/-- `10.0`. -/
def ten : Float64 := .finite ⟨false, 0x4024000000000000, ten_finite⟩

/-- The keys of the three mappings. -/
def rootKeys : List Str := [lit "tls", lit "allowlist_path", lit "server"]

def tlsKeys : List Str := [lit "ca_cert", lit "crl_path", lit "server_cert", lit "server_key"]

def requiredServerKeys : List Str := [lit "host", lit "port"]

def optionalServerKeys : List Str :=
  [lit "handshake_timeout_seconds", lit "read_timeout_seconds", lit "max_payload_bytes"]

section

variable {P : Type} (paths : Paths P)

/-- `_resolve_path`. -/
def resolvePath (base : P) (value : Document) (name : Str) : Except LoadError P := do
  let text ← orError (.notPath name) value.text?
  let path := paths.ofStr text
  if paths.isAbsolute path then return path
  else (paths.resolve (paths.join base path)).mapError .library

/-- The paths of `TLSConfig`. -/
def loadTLS (base : P) (tls : Mapping) : Except LoadError (TLSConfig P) := do
  let caCert ← fetch tls (lit "ca_cert") >>= (resolvePath paths base · (lit "tls.ca_cert"))
  let crlPath ← fetch tls (lit "crl_path") >>= (resolvePath paths base · (lit "tls.crl_path"))
  let serverCert ← fetch tls (lit "server_cert") >>= (resolvePath paths base · (lit "tls.server_cert"))
  let serverKey ← fetch tls (lit "server_key") >>= (resolvePath paths base · (lit "tls.server_key"))
  return ⟨caCert, crlPath, serverCert, serverKey⟩

/-- The host and the port of the server. -/
def loadAddress (server : Mapping) : Except LoadError (Str × ℕ) := do
  let host ← fetch server (lit "host")
  let port ← fetch server (lit "port")
  let host ← orError .host host.text?
  let port ← checkPort port
  return (host, port)

/-- The limits of `ServerConfig`, which have defaults. -/
def loadServer (server : Mapping) (address : Str × ℕ) : Except LoadError ServerConfig := do
  let handshake ← positiveFloat (getD server (lit "handshake_timeout_seconds") (.atom (.float ten)))
    (lit "server.handshake_timeout_seconds")
  let read ← positiveFloat (getD server (lit "read_timeout_seconds") (.atom (.float ten)))
    (lit "server.read_timeout_seconds")
  let maxPayloadBytes ← positiveInt (getD server (lit "max_payload_bytes") (.atom (.int 65536)))
    (lit "server.max_payload_bytes")
  return ⟨address.1, address.2, handshake, read, maxPayloadBytes⟩

/-- `load_config` behind its `except` clause, with the directory of the file. -/
def loadDocument (base : P) (raw : Document) : Except LoadError (CollectorConfig P) := do
  let root ← mapping raw (lit "config")
  exactKeys root rootKeys (lit "config")
  let tls ← fetch root (lit "tls") >>= (mapping · (lit "tls"))
  exactKeys tls tlsKeys (lit "tls")
  let server ← fetch root (lit "server") >>= (mapping · (lit "server"))
  checkKeys server requiredServerKeys optionalServerKeys (lit "server")
  let address ← loadAddress server
  let tls ← loadTLS paths base tls
  let allowlistPath ← fetch root (lit "allowlist_path") >>= (resolvePath paths base · (lit "allowlist_path"))
  let server ← loadServer server address
  return ⟨tls, allowlistPath, server⟩

/-- `load_config`, with what `yaml.safe_load(path.read_text())` gives for a path. -/
def loadConfig (safeLoad : P → Except LibraryError Document) (path : P) :
    Except LoadError (CollectorConfig P) := do
  let configPath ← (paths.resolve path).mapError .library
  let raw ← (safeLoad configPath).mapError notLoaded
  loadDocument paths (paths.parent configPath) raw

/-- A string in a document. -/
def text (s : Str) : Document := .atom (.str s)

/-- A mapping as a document. -/
def write (data : Mapping) : Document := .dict (data.map fun m => (text m.1, m.2))

def tlsMapping (tls : TLSConfig P) : Mapping :=
  [(lit "ca_cert", text (paths.text tls.caCert)), (lit "crl_path", text (paths.text tls.crlPath)),
    (lit "server_cert", text (paths.text tls.serverCert)),
    (lit "server_key", text (paths.text tls.serverKey))]

def serverMapping (server : ServerConfig) : Mapping :=
  [(lit "host", text server.host), (lit "port", .atom (.int server.port)),
    (lit "handshake_timeout_seconds", .atom (.float server.handshakeTimeoutSeconds)),
    (lit "read_timeout_seconds", .atom (.float server.readTimeoutSeconds)),
    (lit "max_payload_bytes", .atom (.int server.maxPayloadBytes))]

def rootMapping (c : CollectorConfig P) : Mapping :=
  [(lit "tls", write (tlsMapping paths c.tls)), (lit "allowlist_path", text (paths.text c.allowlistPath)),
    (lit "server", write (serverMapping c.server))]

/-- A document that leaves nothing out. -/
def dump (c : CollectorConfig P) : Document := write (rootMapping paths c)

/-! ### What is loaded -/

/-- What is known of paths that have been resolved. -/
structure Paths.Lawful : Prop where
  absolute : ∀ path resolved, paths.resolve path = .ok resolved → paths.isAbsolute resolved = true
  nonblank : ∀ path, paths.isAbsolute path = true → Soc.strip (paths.text path) ≠ []
  ofStr_text : ∀ path, paths.ofStr (paths.text path) = path

/-- The paths of a loaded configuration. -/
structure TLSConfig.Valid (tls : TLSConfig P) : Prop where
  caCert : paths.isAbsolute tls.caCert = true
  crlPath : paths.isAbsolute tls.crlPath = true
  serverCert : paths.isAbsolute tls.serverCert = true
  serverKey : paths.isAbsolute tls.serverKey = true

/-- The address and the limits of a loaded configuration. -/
structure ServerConfig.Valid (server : ServerConfig) : Prop where
  host : Soc.strip server.host ≠ []
  port : 1 ≤ server.port ∧ server.port ≤ 65535
  handshake : leZero server.handshakeTimeoutSeconds = false
  read : leZero server.readTimeoutSeconds = false
  maxPayloadBytes : 0 < server.maxPayloadBytes

/-- A loaded configuration. -/
structure CollectorConfig.Valid (c : CollectorConfig P) : Prop where
  tls : c.tls.Valid paths
  allowlistPath : paths.isAbsolute c.allowlistPath = true
  server : c.server.Valid

end

variable {P : Type} {paths : Paths P} {base : P} {value : Document} {name : Str} {data : Mapping}

/-- A value is a text just if it is a string with something in it besides blanks. -/
theorem text?_eq_some {s : Str} : value.text? = some s ↔ value = text s ∧ Soc.strip s ≠ [] := by
  unfold Document.text?
  split
  · rename_i t
    split_ifs with h
    · rw [Option.some.injEq]
      constructor
      · rintro rfl
        exact ⟨rfl, h⟩
      · rintro ⟨hs, -⟩
        cases hs
        rfl
    · refine ⟨fun h => (by cases h), ?_⟩
      rintro ⟨hs, hstrip⟩
      cases hs
      exact absurd hstrip h
  · rename_i h
    exact ⟨fun h => (by cases h), fun hs => absurd hs.1 (h s)⟩

/-- A resolved path is absolute. -/
theorem absolute_of_resolvePath (hpaths : paths.Lawful) {path : P}
    (h : resolvePath paths base value name = .ok path) : paths.isAbsolute path = true := by
  rw [resolvePath] at h
  obtain ⟨t, -, h⟩ := bind_eq_ok.1 h
  dsimp only at h
  split_ifs at h with habsolute
  · rw [← Except.ok.inj h]
    exact habsolute
  · exact hpaths.absolute _ _ (mapError_eq_ok.1 h)

/-- An absolute path is loaded to itself. -/
theorem resolvePath_text (hpaths : paths.Lawful) {path : P} (h : paths.isAbsolute path = true) :
    resolvePath paths base (text (paths.text path)) name = .ok path := by
  have ht : (text (paths.text path)).text? = some (paths.text path) :=
    text?_eq_some.2 ⟨rfl, hpaths.nonblank path h⟩
  rw [resolvePath, ht, orError, ok_bind, hpaths.ofStr_text]
  exact if_pos h

/-- A positive integer is a positive float. -/
theorem leZero_of_floatOfInt {n : ℤ} (hn : 0 < n) {x : Float64} (h : floatOfInt n = .ok x) :
    leZero x = false := by
  rw [floatOfInt] at h
  split_ifs at h
  rw [← Except.ok.inj h]
  have hpos : nearest n.natAbs 1 ≠ 0 := (nearest_pos (Int.natAbs_pos.2 hn.ne')).ne'
  simp [leZero, hpos]

/-- What is loaded as a time limit is not at most zero, but may be no number. -/
theorem leZero_of_positiveFloat {x : Float64} (h : positiveFloat value name = .ok x) : leZero x = false := by
  unfold positiveFloat at h
  split at h
  · split_ifs at h with hn
    exact leZero_of_floatOfInt (not_le.1 hn) h
  · split_ifs at h with hx
    rw [← Except.ok.inj h]
    exact eq_false_of_ne_true hx
  · cases h

/-- A float that is not at most zero is taken as it is. -/
theorem positiveFloat_float {x : Float64} (h : leZero x = false) :
    positiveFloat (.atom (.float x)) name = .ok x := by
  simp [positiveFloat, h]

/-- `_positive_int` returns a positive integer. -/
theorem pos_of_positiveInt {n : ℕ} (h : positiveInt value name = .ok n) : 0 < n := by
  unfold positiveInt at h
  split at h
  · split_ifs at h
    rw [← Except.ok.inj h]
    omega
  · cases h

/-- A positive integer is taken as it is. -/
theorem positiveInt_nat {n : ℕ} (h : 0 < n) : positiveInt (.atom (.int n)) name = .ok n := by
  have hn : ¬ (n : ℤ) ≤ 0 := by omega
  rw [positiveInt, if_neg hn]
  rfl

/-- A port that is taken is one from 1 to 65535. -/
theorem range_of_checkPort {n : ℕ} (h : checkPort value = .ok n) : 1 ≤ n ∧ n ≤ 65535 := by
  unfold checkPort at h
  split at h
  · split_ifs at h
    rw [← Except.ok.inj h]
    omega
  · cases h

/-- A port from 1 to 65535 is taken as it is. -/
theorem checkPort_nat {n : ℕ} (h : 1 ≤ n ∧ n ≤ 65535) : checkPort (.atom (.int n)) = .ok n := by
  have hn : 1 ≤ (n : ℤ) ∧ (n : ℤ) ≤ 65535 := by omega
  simp [checkPort, hn]

/-- The paths of a loaded `tls` mapping are absolute. -/
theorem valid_of_loadTLS (hpaths : paths.Lawful) {tls : TLSConfig P} (h : loadTLS paths base data = .ok tls) :
    tls.Valid paths := by
  have habsolute : ∀ {key name : Str} {path : P},
      (fetch data key >>= fun value => resolvePath paths base value name) = .ok path →
        paths.isAbsolute path = true := by
    intro key name path h
    obtain ⟨value, -, h⟩ := bind_eq_ok.1 h
    exact absolute_of_resolvePath hpaths h
  obtain ⟨caCert, hca, h⟩ := bind_eq_ok.1 h
  obtain ⟨crlPath, hcrl, h⟩ := bind_eq_ok.1 h
  obtain ⟨serverCert, hcert, h⟩ := bind_eq_ok.1 h
  obtain ⟨serverKey, hkey, h⟩ := bind_eq_ok.1 h
  rw [← Except.ok.inj h]
  exact ⟨habsolute hca, habsolute hcrl, habsolute hcert, habsolute hkey⟩

/-- The address and the limits of a loaded `server` mapping are in range. -/
theorem valid_of_loadServer {address : Str × ℕ} {server : ServerConfig}
    (haddress : loadAddress data = .ok address) (h : loadServer data address = .ok server) :
    server.Valid := by
  obtain ⟨host, -, haddress⟩ := bind_eq_ok.1 haddress
  obtain ⟨port, -, haddress⟩ := bind_eq_ok.1 haddress
  obtain ⟨host', hhost, haddress⟩ := bind_eq_ok.1 haddress
  obtain ⟨port', hport, haddress⟩ := bind_eq_ok.1 haddress
  obtain ⟨handshake, hhandshake, h⟩ := bind_eq_ok.1 h
  obtain ⟨read, hread, h⟩ := bind_eq_ok.1 h
  obtain ⟨maxPayloadBytes, hmax, h⟩ := bind_eq_ok.1 h
  cases haddress
  rw [← Except.ok.inj h]
  exact ⟨(text?_eq_some.1 (orError_eq_ok.1 hhost)).2, range_of_checkPort hport,
    leZero_of_positiveFloat hhandshake, leZero_of_positiveFloat hread, pos_of_positiveInt hmax⟩

/-- **What is loaded of a document is valid.** -/
theorem valid_of_loadDocument (hpaths : paths.Lawful) {raw : Document} {c : CollectorConfig P}
    (h : loadDocument paths base raw = .ok c) : c.Valid paths := by
  obtain ⟨root, -, h⟩ := bind_eq_ok.1 h
  obtain ⟨_, -, h⟩ := bind_eq_ok.1 h
  obtain ⟨tls, -, h⟩ := bind_eq_ok.1 h
  obtain ⟨_, -, h⟩ := bind_eq_ok.1 h
  obtain ⟨server, -, h⟩ := bind_eq_ok.1 h
  obtain ⟨_, -, h⟩ := bind_eq_ok.1 h
  obtain ⟨address, haddress, h⟩ := bind_eq_ok.1 h
  obtain ⟨tls', htls, h⟩ := bind_eq_ok.1 h
  obtain ⟨allowlistPath, hallowlist, h⟩ := bind_eq_ok.1 h
  obtain ⟨server', hserver, h⟩ := bind_eq_ok.1 h
  obtain ⟨value, -, hallowlist⟩ := bind_eq_ok.1 hallowlist
  rw [← Except.ok.inj h]
  exact ⟨valid_of_loadTLS hpaths htls, absolute_of_resolvePath hpaths hallowlist,
    valid_of_loadServer haddress hserver⟩

/-- The first key of a mapping has its own value. -/
theorem fetch_cons (key : Str) : fetch ((key, value) :: data) key = .ok value := by
  rw [fetch, List.lookup_cons_self, orError]

/-- A key is looked up behind the others. -/
theorem lookup_cons_of_ne {key key' : Str} (h : key' ≠ key) :
    ((key, value) :: data).lookup key' = data.lookup key' := by
  rw [List.lookup_cons, beq_eq_false_iff_ne.2 h]

/-- A required key is fetched behind the others. -/
theorem fetch_cons_of_ne {key key' : Str} (h : key' ≠ key) :
    fetch ((key, value) :: data) key' = fetch data key' := by
  rw [fetch, lookup_cons_of_ne h, fetch]

/-- An optional key that is there has its own value. -/
theorem getD_cons (key : Str) (default : Document) : getD ((key, value) :: data) key default = value := by
  rw [getD, List.lookup_cons_self, Option.getD_some]

/-- An optional key is looked up behind the others. -/
theorem getD_cons_of_ne {key key' : Str} {default : Document} (h : key' ≠ key) :
    getD ((key, value) :: data) key' default = getD data key' default := by
  rw [getD, lookup_cons_of_ne h, getD]

/-- A mapping that has been written is read as it was. -/
theorem mapping_write : mapping (write data) name = .ok data := by
  have h : strKeys (data.map fun m => (text m.1, m.2)) = some data := by
    induction data with
    | nil => rfl
    | cons m data ih =>
      rw [strKeys] at ih
      rw [strKeys, List.map_cons, List.mapM_cons, ih]
      rfl
  exact orError_eq_ok.2 h

/-- A mapping of all keys passes the check of its keys. -/
theorem checkKeys_of_keys {required optional : List Str} (h : data.map Prod.fst = required ++ optional) :
    checkKeys data required optional name = .ok () := by
  have hunknown : (required ++ optional).filter (· ∉ required ++ optional) = [] :=
    List.filter_eq_nil_iff.2 fun k hk hnot => of_decide_eq_true hnot hk
  have hmissing : required.filter (· ∉ required ++ optional) = [] :=
    List.filter_eq_nil_iff.2 fun k hk hnot => of_decide_eq_true hnot (List.mem_append_left _ hk)
  rw [checkKeys, h, require_true hunknown, ok_bind, require_true hmissing]

/-- The `tls` mapping of valid paths is loaded to them. -/
theorem loadTLS_mapping (hpaths : paths.Lawful) {tls : TLSConfig P} (h : tls.Valid paths) :
    loadTLS paths base (tlsMapping paths tls) = .ok tls := by
  rw [loadTLS, tlsMapping, fetch_cons, ok_bind, resolvePath_text hpaths h.caCert, ok_bind,
    fetch_cons_of_ne (by decide), fetch_cons, ok_bind, resolvePath_text hpaths h.crlPath, ok_bind,
    fetch_cons_of_ne (by decide), fetch_cons_of_ne (by decide), fetch_cons, ok_bind,
    resolvePath_text hpaths h.serverCert, ok_bind, fetch_cons_of_ne (by decide), fetch_cons_of_ne (by decide),
    fetch_cons_of_ne (by decide), fetch_cons, ok_bind, resolvePath_text hpaths h.serverKey, ok_bind]
  rfl

/-- The `server` mapping of a valid address is loaded to it. -/
theorem loadAddress_mapping {server : ServerConfig} (h : server.Valid) :
    loadAddress (serverMapping server) = .ok (server.host, server.port) := by
  have hhost : (text server.host).text? = some server.host := text?_eq_some.2 ⟨rfl, h.host⟩
  rw [loadAddress, serverMapping, fetch_cons, ok_bind, fetch_cons_of_ne (by decide), fetch_cons, ok_bind,
    hhost, orError, ok_bind, checkPort_nat h.port]
  rfl

/-- The `server` mapping of valid limits is loaded to them. -/
theorem loadServer_mapping {server : ServerConfig} (h : server.Valid) :
    loadServer (serverMapping server) (server.host, server.port) = .ok server := by
  rw [loadServer, serverMapping, getD_cons_of_ne (by decide), getD_cons_of_ne (by decide), getD_cons,
    positiveFloat_float h.handshake, ok_bind, getD_cons_of_ne (by decide), getD_cons_of_ne (by decide),
    getD_cons_of_ne (by decide), getD_cons, positiveFloat_float h.read, ok_bind, getD_cons_of_ne (by decide),
    getD_cons_of_ne (by decide), getD_cons_of_ne (by decide), getD_cons_of_ne (by decide), getD_cons,
    positiveInt_nat h.maxPayloadBytes]
  rfl

/-- **A valid configuration that has been written is loaded, from anywhere.** -/
theorem loadDocument_dump (hpaths : paths.Lawful) {c : CollectorConfig P} (h : c.Valid paths) :
    loadDocument paths base (dump paths c) = .ok c := by
  have hroot : exactKeys (rootMapping paths c) rootKeys (lit "config") = .ok () := checkKeys_of_keys rfl
  have htls : exactKeys (tlsMapping paths c.tls) tlsKeys (lit "tls") = .ok () := checkKeys_of_keys rfl
  have hserver : checkKeys (serverMapping c.server) requiredServerKeys optionalServerKeys (lit "server") =
      .ok () := checkKeys_of_keys rfl
  rw [loadDocument, dump, mapping_write, ok_bind, hroot, ok_bind, rootMapping, fetch_cons,
    ok_bind, mapping_write, ok_bind, htls, ok_bind, fetch_cons_of_ne (by decide),
    fetch_cons_of_ne (by decide), fetch_cons, ok_bind, mapping_write, ok_bind, hserver, ok_bind,
    loadAddress_mapping h.server, ok_bind, loadTLS_mapping hpaths h.tls, ok_bind,
    fetch_cons_of_ne (by decide), fetch_cons, ok_bind, resolvePath_text hpaths h.allowlistPath, ok_bind,
    loadServer_mapping h.server]
  rfl

/-- `load_config` loads the document of the resolved path, with relative paths from its directory. -/
theorem loadConfig_eq_ok {safeLoad : P → Except LibraryError Document} {path : P} {c : CollectorConfig P} :
    loadConfig paths safeLoad path = .ok c ↔ ∃ configPath raw, paths.resolve path = .ok configPath ∧
      safeLoad configPath = .ok raw ∧ loadDocument paths (paths.parent configPath) raw = .ok c := by
  simp only [loadConfig, bind_eq_ok, mapError_eq_ok]
  constructor
  · rintro ⟨configPath, hpath, raw, hraw, h⟩
    exact ⟨configPath, raw, hpath, hraw, h⟩
  · rintro ⟨configPath, raw, hpath, hraw, h⟩
    exact ⟨configPath, hpath, raw, hraw, h⟩

/-- **A loaded configuration is valid, and stays what it is when it is written and loaded again**, in any
directory and from any file that has what was written. -/
theorem load_dump (hpaths : paths.Lawful) {safeLoad : P → Except LibraryError Document} {path : P}
    {c : CollectorConfig P} (h : loadConfig paths safeLoad path = .ok c) :
    c.Valid paths ∧ (∀ base, loadDocument paths base (dump paths c) = .ok c) ∧
      ∀ safeLoad' path' configPath, paths.resolve path' = .ok configPath →
        safeLoad' configPath = .ok (dump paths c) → loadConfig paths safeLoad' path' = .ok c := by
  obtain ⟨_, _, -, -, hloaded⟩ := loadConfig_eq_ok.1 h
  have hvalid := valid_of_loadDocument hpaths hloaded
  exact ⟨hvalid, fun _ => loadDocument_dump hpaths hvalid, fun _ _ _ hpath hraw =>
    loadConfig_eq_ok.2 ⟨_, _, hpath, hraw, loadDocument_dump hpaths hvalid⟩⟩

section

/-- Texts as paths, without links.  One with a null character cannot be resolved. -/
def samplePaths : Paths Str where
  ofStr := id
  text := id
  isAbsolute path := decide (path.head? = some (.scalar '/'))
  join base path := base ++ lit "/" ++ path
  parent path := ((path.reverse.dropWhile (· ≠ .scalar '/')).drop 1).reverse
  resolve path :=
    if .scalar '\x00' ∈ path then .error .valueError
    else if path.head? = some (.scalar '/') then .ok path else .ok (lit "/" ++ path)

/-- Resolving leaves the paths of the sample that are absolute. -/
theorem lawful_samplePaths : samplePaths.Lawful where
  absolute path resolved h := by
    refine decide_eq_true ?_
    dsimp only [samplePaths] at h
    split_ifs at h with hnull hhead
    · rw [← Except.ok.inj h]
      exact hhead
    · rw [← Except.ok.inj h]
      rfl
  nonblank path h hblank := by
    have hhead : path.head? = some (.scalar '/') := of_decide_eq_true h
    cases path with
    | nil => cases hhead
    | cons c path =>
      obtain rfl := Option.some.inj hhead
      rw [show samplePaths.text (.scalar '/' :: path) = .scalar '/' :: path from rfl, Soc.strip,
        List.dropWhile_cons_of_neg (by decide), List.reverse_eq_nil_iff, List.dropWhile_eq_nil_iff] at hblank
      exact absurd (hblank (.scalar '/') (List.mem_reverse.2 List.mem_cons_self)) (by decide)
  ofStr_text _ := rfl

/-- A configuration with relative paths and a limit for reading. -/
def sampleDocument (caCert : Str) (readTimeoutSeconds : ℤ) : Document :=
  write [(lit "tls", write [(lit "ca_cert", text caCert), (lit "crl_path", text (lit "ca.crl")),
      (lit "server_cert", text (lit "server.crt")), (lit "server_key", text (lit "server.key"))]),
    (lit "allowlist_path", text (lit "nodes.yaml")),
    (lit "server", write [(lit "host", text (lit "127.0.0.1")), (lit "port", .atom (.int 8443)),
      (lit "read_timeout_seconds", .atom (.int readTimeoutSeconds))])]

/-- The file system has one document. -/
def sampleLoad (document : Document) (_ : Str) : Except LibraryError Document := .ok document

/-- A configuration with relative paths and defaults, and the document that names all of it. -/
theorem load_dump_sample : ∃ c, loadConfig samplePaths (sampleLoad (sampleDocument (lit "ca.crt") 10))
      (lit "/etc/collector.yaml") = .ok c ∧
    c.tls.crlPath = lit "/etc/ca.crl" ∧ c.Valid samplePaths ∧
    loadConfig samplePaths (sampleLoad (dump samplePaths c)) (lit "/other.yaml") = .ok c := by
  have hloaded : (loadConfig samplePaths (sampleLoad (sampleDocument (lit "ca.crt") 10))
      (lit "/etc/collector.yaml")).toOption.any (fun c => c.tls.crlPath = lit "/etc/ca.crl") = true := by
    decide +kernel
  obtain ⟨c, hc, hpath⟩ := (Option.any_eq_true _ _).1 hloaded
  have hok : loadConfig samplePaths (sampleLoad (sampleDocument (lit "ca.crt") 10))
      (lit "/etc/collector.yaml") = .ok c := by
    cases h : loadConfig samplePaths (sampleLoad (sampleDocument (lit "ca.crt") 10))
        (lit "/etc/collector.yaml") with
    | error e =>
      rw [h] at hc
      cases hc
    | ok c' =>
      rw [h] at hc
      exact congrArg _ (Option.some.inj hc)
  obtain ⟨hvalid, -, hagain⟩ := load_dump lawful_samplePaths hok
  have hother : samplePaths.resolve (lit "/other.yaml") = .ok (lit "/other.yaml") := by rfl
  exact ⟨c, hok, of_decide_eq_true hpath, hvalid, hagain _ _ _ hother rfl⟩

end

/-! ### What is raised -/

/-- `ConfigError`. -/
def LoadError.IsConfig : LoadError → Prop
  | .overflowError | .keyError _ | .library _ => False
  | _ => True

/-- `_mapping` raises `ConfigError` only. -/
theorem raises_mapping : Raises LoadError.IsConfig (mapping value name) := by
  unfold mapping
  split
  · rename_i members
    cases strKeys members with
    | none => exact .error trivial
    | some data => exact .ok
  · exact .error trivial

/-- The check of the keys raises `ConfigError` only. -/
theorem raises_checkKeys {required optional : List Str} :
    Raises LoadError.IsConfig (checkKeys data required optional name) :=
  (Raises.require trivial).bind fun _ _ => .require trivial

/-- A key that has been found missing is not looked up. -/
theorem exists_fetch {required optional : List Str} {u : Unit}
    (h : checkKeys data required optional name = .ok u) {key : Str} (hkey : key ∈ required) :
    ∃ value, fetch data key = .ok value := by
  rw [checkKeys, bind_eq_ok] at h
  obtain ⟨_, -, h⟩ := h
  have hmem : key ∈ data.map Prod.fst := by
    by_contra hnot
    exact List.filter_eq_nil_iff.1 (require_eq_ok.1 h) key hkey (decide_eq_true hnot)
  obtain ⟨m, hm, rfl⟩ := List.mem_map.1 hmem
  obtain ⟨value, hvalue⟩ := Option.isSome_iff_exists.1
    (List.lookup_isSome_iff.2 ⟨m, hm, beq_self_eq_true m.1⟩)
  exact ⟨value, orError_eq_ok.2 hvalue⟩

/-- An exception that the path library raises for a relative path of a document. -/
def FromPath (paths : Paths P) (base : P) (value : Document) (e : LoadError) : Prop :=
  ∃ t x, value = text t ∧ paths.isAbsolute (paths.ofStr t) = false ∧
    paths.resolve (paths.join base (paths.ofStr t)) = .error x ∧ e = .library x

/-- `_resolve_path` raises `ConfigError`, or what the library raises for a relative path. -/
theorem raises_resolvePath :
    Raises (fun e => e.IsConfig ∨ FromPath paths base value e) (resolvePath paths base value name) := by
  unfold resolvePath
  cases ht : value.text? with
  | none => exact .error (Or.inl trivial)
  | some t =>
    rw [orError, ok_bind]
    dsimp only
    split_ifs with habsolute
    · exact .ok
    · refine raises_mapError_iff.2 fun x hx => Or.inr ⟨t, x, (text?_eq_some.1 ht).1, ?_, hx, rfl⟩
      exact eq_false_of_ne_true habsolute

/-- `_positive_int` raises `ConfigError` only. -/
theorem raises_positiveInt : Raises LoadError.IsConfig (positiveInt value name) := by
  unfold positiveInt
  split
  · split_ifs
    · exact .error trivial
    · exact .ok
  · exact .error trivial

/-- The check of the port raises `ConfigError` only. -/
theorem raises_checkPort : Raises LoadError.IsConfig (checkPort value) := by
  unfold checkPort
  split
  · split_ifs
    · exact .ok
    · exact .error trivial
  · exact .error trivial

/-- A number of seconds that is too large for a float. -/
def TooLarge (value : Document) : Prop := ∃ n : ℤ, value = .atom (.int n) ∧ 2 ^ 1024 - 2 ^ 970 ≤ n

/-- `float` raises `OverflowError` for a positive integer that is too large, and nothing else. -/
theorem tooLarge_of_floatOfInt {n : ℤ} (hn : 0 < n) {e : LoadError} (h : floatOfInt n = .error e) :
    e = .overflowError ∧ TooLarge (.atom (.int n)) := by
  rw [floatOfInt] at h
  split_ifs at h with hinfinite
  have hle : 2 ^ 1024 - 2 ^ 970 ≤ n.natAbs := infinite_le_nearest_iff.1 (not_lt.1 hinfinite)
  refine ⟨(Except.error.inj h).symm, n, rfl, ?_⟩
  have hpow : 2 ^ 970 ≤ 2 ^ 1024 := Nat.pow_le_pow_right Nat.two_pos (by omega)
  have hcast : ((2 ^ 1024 - 2 ^ 970 : ℕ) : ℤ) ≤ n := by
    rw [← Int.natAbs_of_nonneg hn.le]
    exact Int.ofNat_le.2 hle
  rwa [Nat.cast_sub hpow, Nat.cast_pow, Nat.cast_pow] at hcast

/-- `_positive_float` raises `ConfigError`, or `OverflowError` for an integer that is too large. -/
theorem raises_positiveFloat :
    Raises (fun e => e.IsConfig ∨ e = .overflowError ∧ TooLarge value) (positiveFloat value name) := by
  unfold positiveFloat
  split
  · split_ifs with hn
    · exact .error (Or.inl trivial)
    · exact fun e he => Or.inr (tooLarge_of_floatOfInt (not_le.1 hn) he)
  · split_ifs
    · exact .error (Or.inl trivial)
    · exact .ok
  · exact .error (Or.inl trivial)

/-- The value of a key is that of the mapping. -/
theorem get?_of_mapping (h : mapping value name = .ok data) (key : Str) :
    value.get? key = data.lookup key := by
  unfold mapping at h
  split at h
  · rw [Document.get?, orError_eq_ok.1 h]
    rfl
  · cases h

/-- The keys of the time limits. -/
def timeKeys : List Str := [lit "handshake_timeout_seconds", lit "read_timeout_seconds"]

/-- A time limit of the server is too large for a float. -/
def Overflows (server : Mapping) : Prop :=
  ∃ key ∈ timeKeys, ∃ value, server.lookup key = some value ∧ TooLarge value

/-- A time limit that is too large is one of the document's, since the default is not. -/
theorem overflows_of_tooLarge {key : Str} (hkey : key ∈ timeKeys)
    (h : TooLarge (getD data key (.atom (.float ten)))) : Overflows data := by
  rw [getD] at h
  cases hvalue : data.lookup key with
  | none =>
    rw [hvalue] at h
    obtain ⟨n, hn, -⟩ := h
    cases hn
  | some value =>
    rw [hvalue] at h
    exact ⟨key, hkey, value, hvalue, h⟩

/-- Loading the limits raises `ConfigError`, or `OverflowError` for a time limit that is too large. -/
theorem raises_loadServer {address : Str × ℕ} :
    Raises (fun e => e.IsConfig ∨ e = .overflowError ∧ Overflows data) (loadServer data address) := by
  have hlimit : ∀ key ∈ timeKeys, ∀ {name},
      Raises (fun e => e.IsConfig ∨ e = .overflowError ∧ Overflows data)
        (positiveFloat (getD data key (.atom (.float ten))) name) := fun key hkey name =>
    raises_positiveFloat.mono fun e he => he.imp id fun he => ⟨he.1, overflows_of_tooLarge hkey he.2⟩
  refine (hlimit _ (by decide)).bind fun _ _ => (hlimit _ (by decide)).bind fun _ _ => ?_
  exact (raises_positiveInt.mono fun _ => Or.inl).bind fun _ _ => .ok

/-- A required key is there after the check of the keys, so that fetching it raises nothing. -/
theorem raises_fetch {required optional : List Str} {u : Unit}
    (h : checkKeys data required optional name = .ok u) {key : Str} (hkey : key ∈ required)
    {P : LoadError → Prop} :
    Raises P (fetch data key) := by
  obtain ⟨value, hvalue⟩ := exists_fetch h hkey
  exact .of_ok hvalue

/-- Loading the address raises `ConfigError` only. -/
theorem raises_loadAddress {optional : List Str} {u : Unit}
    (h : checkKeys data requiredServerKeys optional name = .ok u) :
    Raises LoadError.IsConfig (loadAddress data) := by
  refine (raises_fetch h (by decide)).bind fun host _ => (raises_fetch h (by decide)).bind fun port _ => ?_
  refine Raises.bind ?_ fun _ _ => raises_checkPort.bind fun _ _ => .ok
  cases host.text? with
  | none => exact .error trivial
  | some t => exact .ok

/-- A value of a document that is loaded as a path. -/
def IsPathOf (raw : Document) (value : Document) : Prop :=
  raw.get? (lit "allowlist_path") = some value ∨
    ∃ key ∈ tlsKeys, (raw.get? (lit "tls")).bind (·.get? key) = some value

/-- Loading the paths raises `ConfigError`, or what the library raises for one of them. -/
theorem raises_loadTLS {u : Unit} (h : exactKeys data tlsKeys name = .ok u) :
    Raises (fun e => e.IsConfig ∨ ∃ key ∈ tlsKeys, ∃ value, data.lookup key = some value ∧
      FromPath paths base value e) (loadTLS paths base data) := by
  have hpath : ∀ key ∈ tlsKeys, ∀ name, Raises (fun e => e.IsConfig ∨ ∃ key ∈ tlsKeys, ∃ value,
      data.lookup key = some value ∧ FromPath paths base value e)
        (fetch data key >>= fun value => resolvePath paths base value name) := fun key hkey name =>
    (raises_fetch h hkey).bind fun value hvalue => raises_resolvePath.mono fun e he =>
      he.imp_right fun he => ⟨key, hkey, value, orError_eq_ok.1 hvalue, he⟩
  exact (hpath _ (by decide) _).bind fun _ _ => (hpath _ (by decide) _).bind fun _ _ =>
    (hpath _ (by decide) _).bind fun _ _ => (hpath _ (by decide) _).bind fun _ _ => .ok

/-- What `load_config` raises for a document besides `ConfigError`: what the path library does for one of its
relative paths, or `OverflowError` for a time limit. -/
def FromDocument (paths : Paths P) (base : P) (raw : Document) (e : LoadError) : Prop :=
  (∃ value, IsPathOf raw value ∧ FromPath paths base value e) ∨
    e = .overflowError ∧ ∃ key ∈ timeKeys, ∃ value,
      (raw.get? (lit "server")).bind (·.get? key) = some value ∧ TooLarge value

/-- `loadDocument` raises `ConfigError`, or what comes from a path or a time limit of the document. -/
theorem raises_loadDocument {raw : Document} :
    Raises (fun e => e.IsConfig ∨ FromDocument paths base raw e) (loadDocument paths base raw) := by
  have hown : ∀ {α : Type} {x : Except LoadError α}, Raises LoadError.IsConfig x →
      Raises (fun e => e.IsConfig ∨ FromDocument paths base raw e) x := fun hx => hx.mono fun _ => Or.inl
  refine (hown raises_mapping).bind fun root hroot => (hown raises_checkKeys).bind fun _ hkeys => ?_
  refine Raises.bind ((raises_fetch hkeys (by decide)).bind fun _ _ => hown raises_mapping) fun tls htls => ?_
  refine (hown raises_checkKeys).bind fun _ htlsKeys => ?_
  refine Raises.bind ((raises_fetch hkeys (by decide)).bind fun _ _ => hown raises_mapping)
    fun server hserver => ?_
  refine (hown raises_checkKeys).bind fun _ hserverKeys => ?_
  refine (hown (raises_loadAddress hserverKeys)).bind fun address _ => ?_
  have hmember : ∀ {key : Str} {items : Mapping},
      (fetch root key >>= fun value => mapping value key) = .ok items →
        ∀ key', (raw.get? key).bind (·.get? key') = items.lookup key' := by
    intro key items hitems key'
    obtain ⟨value, hfetch, hitems⟩ := bind_eq_ok.1 hitems
    rw [get?_of_mapping hroot, orError_eq_ok.1 hfetch, Option.bind_some, get?_of_mapping hitems]
  have hloadTLS : Raises (fun e => e.IsConfig ∨ FromDocument paths base raw e) (loadTLS paths base tls) := by
    refine (raises_loadTLS htlsKeys).mono fun e he => he.imp_right fun he => Or.inl ?_
    obtain ⟨key, hkey, value, hvalue, hpath⟩ := he
    exact ⟨value, Or.inr ⟨key, hkey, (hmember htls key).trans hvalue⟩, hpath⟩
  have hallowlist : Raises (fun e => e.IsConfig ∨ FromDocument paths base raw e)
      (fetch root (lit "allowlist_path") >>= (resolvePath paths base · (lit "allowlist_path"))) := by
    refine (raises_fetch hkeys (by decide)).bind fun value hvalue => ?_
    refine raises_resolvePath.mono fun e he => he.imp_right fun he => Or.inl ⟨value, Or.inl ?_, he⟩
    exact (get?_of_mapping hroot _).trans (orError_eq_ok.1 hvalue)
  have hloadServer : Raises (fun e => e.IsConfig ∨ FromDocument paths base raw e)
      (loadServer server address) := by
    refine raises_loadServer.mono fun e he => he.imp_right fun he => Or.inr ⟨he.1, ?_⟩
    obtain ⟨key, hkey, limit, hlimit, hlarge⟩ := he.2
    exact ⟨key, hkey, limit, (hmember hserver key).trans hlimit, hlarge⟩
  exact hloadTLS.bind fun _ _ => hallowlist.bind fun _ _ => hloadServer.bind fun _ _ => .ok

/-- **What `load_config` raises**: `ConfigError`; what the path library raises for the file or for a relative path
in it; what reading and parsing the file raises, unless that is an `OSError` or a `YAMLError`; and
`OverflowError`, but only for a time limit of the document that is an integer too large for a float. -/
theorem load_raises {safeLoad : P → Except LibraryError Document} {path : P} {e : LoadError}
    (h : loadConfig paths safeLoad path = .error e) :
    e.IsConfig ∨ (∃ x, paths.resolve path = .error x ∧ e = .library x) ∨
      ∃ configPath, paths.resolve path = .ok configPath ∧
        ((∃ x, safeLoad configPath = .error x ∧ x ≠ .osError ∧ x ≠ .yamlError ∧ e = .library x) ∨
          ∃ raw, safeLoad configPath = .ok raw ∧ FromDocument paths (paths.parent configPath) raw e) := by
  rw [loadConfig] at h
  obtain h | ⟨configPath, hpath, h⟩ := bind_eq_error.1 h
  · obtain ⟨x, hx, rfl⟩ := mapError_eq_error.1 h
    exact Or.inr (Or.inl ⟨x, hx, rfl⟩)
  have hpath := mapError_eq_ok.1 hpath
  obtain h | ⟨raw, hraw, h⟩ := bind_eq_error.1 h
  · obtain ⟨x, hx, rfl⟩ := mapError_eq_error.1 h
    cases x with
    | osError | yamlError => exact Or.inl trivial
    | _ => exact Or.inr (Or.inr ⟨configPath, hpath, Or.inl ⟨_, hx, by decide, by decide, rfl⟩⟩)
  · exact (raises_loadDocument e h).imp_right fun he =>
      Or.inr ⟨configPath, hpath, Or.inr ⟨raw, mapError_eq_ok.1 hraw, he⟩⟩

/-- A null character in the first path is an exception that comes from the document. -/
theorem load_raises_null : FromDocument samplePaths (lit "/etc")
    (sampleDocument [.scalar 'a', .scalar '\x00'] 10) (.library .valueError) := by
  have hnull : loadConfig samplePaths (sampleLoad (sampleDocument [.scalar 'a', .scalar '\x00'] 10))
      (lit "/etc/collector.yaml") = .error (.library .valueError) := by rfl
  have hpath : samplePaths.resolve (lit "/etc/collector.yaml") = .ok (lit "/etc/collector.yaml") := by rfl
  obtain h | ⟨x, h, -⟩ | ⟨configPath, h, ⟨x, hx, -⟩ | ⟨raw, hraw, h'⟩⟩ := load_raises hnull
  · cases h
  · cases hpath.symm.trans h
  · cases hx
  · obtain rfl := Except.ok.inj (hpath.symm.trans h)
    obtain rfl := Except.ok.inj hraw
    exact h'

end Config
end Collector
end Vestrix
