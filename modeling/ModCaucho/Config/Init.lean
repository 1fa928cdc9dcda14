import ModCaucho.Balance.Table
import ModCaucho.Config.AppDirs
import ModCaucho.Registry.Load

/-!
# Reading the configuration

How the directives of the web server build the configuration of the plugin: the runners
that `CauchoHost` and `CauchoBackup` add, and the file that `CauchoConfigFile` points to,
from which `cse_init_config` takes the locations, the runners, the error page, and whether
there is a status page. The web server gives up at the first directive whose command
returns an error.
-/

namespace ModCaucho

open CString LinkedForest

/-- The part of `config_t` that is built when the server starts. `srunTable` holds the
runners and `error`. -/
structure ModuleConfig where
  srunTable : SrunTable
  path : Text
  resinHome : Option Text
  disableCauchoStatus : Bool
  errorPage : Option Text
  locations : List Location

/-- `config->error` -/
def ModuleConfig.error (config : ModuleConfig) : Option Text := config.srunTable.error

/-- Sets `config->error`. -/
def ModuleConfig.setError (config : ModuleConfig) (error : Option Text) : ModuleConfig :=
  { config with srunTable := { config.srunTable with error := error } }

/-! ## Runners -/

/-- `cse_add_host` -/
def cseAddHost (hostent : Text → Option UInt32) (t : SrunTable) (hostname : Text) (port : ℤ) :
    SrunTable :=
  (cseAddHostInt t ⟨hostname, port, false, false, hostent hostname⟩).2

/-- `cse_add_backup` -/
def cseAddBackup (hostent : Text → Option UInt32) (t : SrunTable) (hostname : Text) (port : ℤ) :
    SrunTable :=
  (cseAddHostInt t ⟨hostname, port, true, false, hostent hostname⟩).2

/-- `node && node->value && *node->value`, with the value. -/
def Registry.text? (node : Registry) : Option Text := node.value.filter (· ≠ [])

/-- Assigns to fields of an entry of the block. -/
def SrunTable.modify (t : SrunTable) (i : ℕ) (f : Srun → Srun) : SrunTable :=
  { t with
    srunList := t.srunList.modify i f
    size_le := by simpa using t.size_le }

/-- `live_time` and `dead_time` are five seconds at least. -/
def atLeastFive (value : Text) : ℕ :=
  if atoi (ascii value) < 5 then 5 else (atoi (ascii value)).toNat

/-- `cse_init_host_node` -/
def cseInitHostNode (hostent : Text → Option UInt32) (t : SrunTable) (node : Registry)
    (isBackup isDefault : Bool) : SrunTable :=
  let hostNode := cseNextLink node "srun-host".toList
  let portNode := cseNextLink node "srun-port".toList
  let hostNode :=
    if hostNode = .nil ∧ ¬ isDefault then cseNextLink node "host".toList else hostNode
  let portNode :=
    if portNode = .nil ∧ ¬ isDefault then cseNextLink node "port".toList else portNode
  let port := match portNode.text? with
    | some value => atoi (ascii value)
    | none => 6802
  let host := hostNode.text?.getD "localhost".toList
  match cseAddHostInt t ⟨host, port, isBackup, isDefault, hostent host⟩ with
  | (none, t) => t
  | (some i, t) =>
      let t := match (cseNextLink node "connect-timeout".toList).text? with
        | some value => t.modify i fun srun => { srun with connectTimeout := atoi (ascii value) }
        | none => t
      let t := match (cseNextLink node "live-time".toList).text? with
        | some value => t.modify i fun srun => { srun with liveTime := atLeastFive value }
        | none => t
      match (cseNextLink node "dead-time".toList).text? with
        | some value => t.modify i fun srun => { srun with deadTime := atLeastFive value }
        | none => t

/-- The nodes of a loop `for (node = cse_next_link(node, key); node; node =
cse_next_link(node->next, key))`. -/
def linksTo (key : Text) : Registry → List Registry
  | .nil => []
  | .node entry first next =>
      if entry.key = key then .node entry first next :: linksTo key next else linksTo key next

/-- `cse_init_hosts` -/
def cseInitHosts (hostent : Text → Option UInt32) (t : SrunTable) (top : Registry) : SrunTable :=
  let sruns := linksTo "srun".toList top
  let backups := linksTo "srun-backup".toList top
  let t := sruns.foldl (fun t node => cseInitHostNode hostent t node.first false false) t
  let t := backups.foldl (fun t node => cseInitHostNode hostent t node.first true false) t
  if sruns = [] ∧ backups = [] then cseInitHostNode hostent t top false true else t

/-! ## The error page -/

/-- One round of the loop of `cse_init_error_page`. -/
def errorPageRound (page : Option Text) (node : Registry) : Option Text :=
  let exn := cseFindValue node.first "exception-type".toList
  let code := cseFindValue node.first "error-code".toList
  if exn = some "connection".toList then cseFindValue node.first "location".toList
  else if exn = none ∧ code = none ∧ page = none then cseFindValue node.first "location".toList
  else page

/-- `cse_init_error_page`, which sets `config->error_page` -/
def cseInitErrorPage (page : Option Text) (node : Registry) : Option Text :=
  (linksTo "error-page".toList node).foldl errorPageRound page

/-! ## The file -/

/-- The part of a path before its last slash or backslash, if there is one. -/
def beforeSlash (path : Text) : Option Text :=
  if path.any fun ch => ch = '/' ∨ ch = '\\' then some (dirOf path) else none

/-- The directory that `cse_init_config` takes for Resin's home: the path without its last
two components. -/
def resinHomeOf (path : Text) : Text := ((beforeSlash path).bind beforeSlash).getD ['.']

/-- The `web.xml` that `cse_init_web_app` finds in a directory. -/
def Machine.webXml (m : Machine) : WebXml := fun path =>
  match m.files path with
  | none => none
  | some file =>
      match m.parsed path file with
      | .ok r => r.1
      | .error _ => none

/-- What becomes of `config->error` when these calls of `cse_init_web_app` parse what they
find. -/
def Machine.webXmlError (m : Machine) : List WebAppCall → Option Text → Except Stop (Option Text)
  | [], error => .ok error
  | c :: calls, error =>
      match m.files (webXmlIn c.appDir) with
      | none => m.webXmlError calls error
      | some file =>
          match m.parse (webXmlIn c.appDir) file error with
          | .ok r => m.webXmlError calls r.2
          | .error stop => .error stop

/-- The `http-server` block of a file. -/
def httpServer (root : Registry) : Registry :=
  cseNextLink (cseNextLink root.first "caucho.com".toList).first "http-server".toList

/-- The block turns off the status page. -/
def turnsStatusOff (node : Registry) : Bool :=
  match cseFindValue node.first "caucho-status".toList with
  | some value => value = "false".toList ∨ value = "no".toList
  | none => false

/-- The part of `cse_init_config` behind the parser, for an `http-server` block that is
there. -/
def initServerBlock (m : Machine) (config : ModuleConfig) (node : Registry) (home : Text) :
    Except Stop ModuleConfig :=
  match m.webXmlError (serverCalls node home) config.error with
  | .error stop => .error stop
  | .ok error =>
      let config := config.setError error
      .ok { config with
        disableCauchoStatus := config.disableCauchoStatus || turnsStatusOff node
        locations := cseInitServer m.webXml config.locations node home
        srunTable := cseInitHosts m.hostent config.srunTable node.first
        errorPage := cseInitErrorPage config.errorPage node.first }

/-- `cse_init_config` -/
def cseInitConfig (m : Machine) (config : ModuleConfig) : Except Stop ModuleConfig :=
  let home := config.resinHome.getD (resinHomeOf config.path)
  let config := { config with resinHome := some home }
  match m.files config.path with
  | none =>
      .ok (config.setError
        (some ("Resin cannot open config file `".toList ++ config.path ++ "'\n".toList)))
  | some file =>
      match m.parse config.path file config.error with
      | .error stop => .error stop
      | .ok (root, error) =>
          let config := config.setError error
          let node := httpServer (root.getD .nil)
          if node = .nil then .ok config else initServerBlock m config node home

/-! ## Directives -/

/-- A directive of the web server, with its arguments. -/
inductive Directive
  | configFile (value : Text)
  | host (hostArg : Text) (portArg : Option Text)
  | backup (hostArg : Text) (portArg : Option Text)
  | keepalive (flag : Bool)
  | errorPage (page : Text)
deriving DecidableEq, Repr

/-- The configuration of the server, and the static `g_error_page`. -/
structure Settings where
  config : ModuleConfig
  gErrorPage : Option Text

/-- Before the first directive, as `cse_create_server_config` leaves it. -/
def Settings.start : Settings where
  config := ⟨cseCreateServerConfig, [], none, false, none, []⟩
  gErrorPage := none

/-- The port of `CauchoHost` and of `CauchoBackup`. -/
def directivePort (portArg : Option Text) : ℤ :=
  match portArg with
  | some port => atoi (ascii port)
  | none => defaultPort

/-- `cse_config_file_command` -/
def cseConfigFileCommand (m : Machine) (s : Settings) (value : Text) :
    Except Stop (Option Text × Settings) :=
  (cseInitConfig m { s.config with path := m.serverRoot value }).map fun config =>
    (config.error, { s with config := config })

/-- `cse_host_command` -/
def cseHostCommand (m : Machine) (s : Settings) (hostArg : Text) (portArg : Option Text) :
    Option Text × Settings :=
  let config := { s.config with
    srunTable := cseAddHost m.hostent s.config.srunTable hostArg (directivePort portArg) }
  (config.error, { s with config := config })

/-- `cse_backup_command` -/
def cseBackupCommand (m : Machine) (s : Settings) (hostArg : Text) (portArg : Option Text) :
    Option Text × Settings :=
  let config := { s.config with
    srunTable := cseAddBackup m.hostent s.config.srunTable hostArg (directivePort portArg) }
  (config.error, { s with config := config })

/-- `cse_keepalive_command` -/
def cseKeepaliveCommand (s : Settings) (_flag : Bool) : Option Text × Settings := (none, s)

/-- `cse_error_page_command` -/
def cseErrorPageCommand (s : Settings) (errorPageArg : Text) : Option Text × Settings :=
  (none, { s with gErrorPage := some errorPageArg })

/-- The command of a directive, as `caucho_commands` has it. -/
def Directive.exec (m : Machine) (s : Settings) : Directive → Except Stop (Option Text × Settings)
  | configFile value => cseConfigFileCommand m s value
  | host hostArg portArg => .ok (cseHostCommand m s hostArg portArg)
  | backup hostArg portArg => .ok (cseBackupCommand m s hostArg portArg)
  | keepalive flag => .ok (cseKeepaliveCommand s flag)
  | errorPage page => .ok (cseErrorPageCommand s page)

/-- Why the server does not start: the plugin never returns from a command, or a command
returns an error. -/
inductive Refusal
  | stop (stop : Stop)
  | error (message : Text)
deriving DecidableEq, Repr

/-- The server reads its directives, up to the first one that is refused. -/
def configure (m : Machine) : List Directive → Settings → Except Refusal Settings
  | [], s => .ok s
  | d :: ds, s =>
      match d.exec m s with
      | .error stop => .error (.stop stop)
      | .ok (some message, _) => .error (.error message)
      | .ok (none, s) => configure m ds s

/-! ## Loops over the registry -/

/-- The loop goes to the first node with the key, and on from its next sibling. -/
theorem linksTo_eq (key : Text) (node : Registry) :
    linksTo key node =
      match cseNextLink node key with
      | .nil => []
      | .node entry first next => .node entry first next :: linksTo key next := by
  induction node with
  | nil => rfl
  | node entry first next _ ih =>
      by_cases h : entry.key = key
      · rw [linksTo, cseNextLink, if_pos h, if_pos h]
      · rw [linksTo, cseNextLink, if_neg h, if_neg h]
        exact ih

end ModCaucho
