import Redis.Config.Roundtrip
import Redis.Sds.Words
import Redis.Sentinel
import Redis.Util

/-!
# Redis.Sentinel.Config

The part of the configuration file that Sentinel keeps: `rewriteConfigSentinelOption`,
which writes its state as lines, and `sentinelHandleConfiguration`, which restores the
state from the words of a line.
-/

namespace Redis.Sentinel

open Redis.Config
open Redis.Sds
open Redis.Bus (strcaseEq)

/-! ## The state -/

/-- What is outside of the program: `anetResolve`, and whether `access` finds an executable
file. -/
structure Env where
  resolve : Bytes → Option Bytes
  executable : Bytes → Bool

/-- A slave of a master or another Sentinel that watches it.  The name is its key in the
table, the leader its last vote. -/
structure Instance where
  name : Bytes
  addr : Addr
  runid : Option Bytes
  leader : Option Bytes
  leaderEpoch : Nat
  deriving DecidableEq

/-- A master.  Of the promoted slave only the address matters here. -/
structure Master where
  name : Bytes
  addr : Addr
  quorum : Nat
  downAfterPeriod : Int
  failoverTimeout : Int
  parallelSyncs : Int
  notificationScript : Option Bytes
  clientReconfigScript : Option Bytes
  authPass : Option Bytes
  configEpoch : Nat
  leader : Option Bytes
  leaderEpoch : Nat
  slaves : List Instance
  sentinels : List Instance
  failoverInProgress : Bool
  failoverState : FailoverState
  failoverEpoch : Nat
  promotedSlave : Option Addr
  deriving DecidableEq

structure SentinelState where
  currentEpoch : Nat
  masters : List Master
  announceIp : Option Bytes
  announcePort : Int
  deriving DecidableEq

def SENTINEL_DEFAULT_DOWN_AFTER : Int := 30000

def SENTINEL_DEFAULT_FAILOVER_TIMEOUT : Int := 180000

def SENTINEL_DEFAULT_PARALLEL_SYNCS : Int := 1

def initSentinel : SentinelState := ⟨0, [], none, 0⟩

/-! ## Numbers -/

/-- `%d` and `%ld`. -/
def printInt (v : Int) : Bytes :=
  if v < 0 then 45 :: decimal v.natAbs else decimal v.toNat

/-- The digits at the start of a text, as a number. -/
def digitsValue (w : Bytes) : Nat :=
  (w.takeWhile fun b => 48 ≤ b && b ≤ 57).foldl (fun v b => v * 10 + (b.toNat - 48)) 0

/-- The sign of a number, and what follows. -/
def readSign : Bytes → Bool × Bytes
  | [] => (false, [])
  | b :: w => if b = 45 then (true, w) else if b = 43 then (false, w) else (false, b :: w)

/-- Digits end at the first byte that is none. -/
theorem digitsValue_append {digits rest : Bytes} (h : ∀ b ∈ digits, 48 ≤ b ∧ b ≤ 57)
    (hrest : ∀ b ∈ rest.head?, ¬ (48 ≤ b ∧ b ≤ 57)) : digitsValue (digits ++ rest) =
      digits.foldl (fun v b => v * 10 + (b.toNat - 48)) 0 := by
  have hstop : rest.takeWhile (fun b : UInt8 => 48 ≤ b && b ≤ 57) = [] := by
    cases rest with
    | nil => rfl
    | cons b t =>
      refine List.takeWhile_cons_of_neg ?_
      simpa only [Bool.and_eq_true, decide_eq_true_eq] using hrest b rfl
  rw [digitsValue, List.takeWhile_append_of_pos (by simpa using h), hstop, List.append_nil]

/-- A digit is neither a space nor a sign. -/
theorem readSign_digit {b : UInt8} {w : Bytes} (hb : 48 ≤ b ∧ b ≤ 57) :
    readSign ((b :: w).dropWhile isspace) = (false, b :: w) := by
  have hspace : isspace b = false := by
    rw [isspace]
    grind
  have h45 : b ≠ 45 := by grind
  have h43 : b ≠ 43 := by grind
  rw [List.dropWhile_cons_of_neg (by simp [hspace])]
  simp [readSign, h45, h43]

/-- `atoi`, which is `strtol` cut to an `int`. -/
def atoi (w : Bytes) : Int :=
  let (negative, ds) := readSign (w.dropWhile isspace)
  let v : Int := digitsValue ds
  let v := if negative then max (-2 ^ 63) (-v) else min (2 ^ 63 - 1) v
  v.bmod (2 ^ 32)

/-- `strtoull` to the base 10. -/
def strtoull (w : Bytes) : Nat :=
  let (negative, ds) := readSign (w.dropWhile isspace)
  let v := digitsValue ds
  if 2 ^ 64 ≤ v then 2 ^ 64 - 1
  else if negative then (2 ^ 64 - v) % 2 ^ 64
  else v

/-! ## Creating instances -/

/-- The values of `errno` that `createSentinelRedisInstance` sets. -/
inductive Errno where
  | EBUSY
  | ENOENT
  | EINVAL
  deriving DecidableEq

def createSentinelAddr (env : Env) (hostname : Bytes) (port : Int) : Except Errno Addr :=
  if port ≤ 0 ∨ 65535 < port then .error .EINVAL
  else
    match env.resolve hostname with
    | none => .error .ENOENT
    | some ip => .ok ⟨ip, port.toNat⟩

/-- The name of a slave or a Sentinel, which is written to a buffer of 128 bytes. -/
def instanceName (hostname : Bytes) (port : Int) : Bytes :=
  ((if 58 ∈ hostname then 91 :: (hostname ++ [93]) else hostname) ++ 58 :: printInt port).take 127

/-- `createSentinelRedisInstance` for a master, which is added to the table. -/
def createMaster (env : Env) (st : SentinelState) (name hostname : Bytes) (port : Int)
    (quorum : Nat) : Except Errno SentinelState := do
  let addr ← createSentinelAddr env hostname port
  if st.masters.any (·.name == name) then .error .EBUSY
  else
    .ok { st with
      masters := st.masters ++
        [{ name
           addr
           quorum
           downAfterPeriod := SENTINEL_DEFAULT_DOWN_AFTER
           failoverTimeout := SENTINEL_DEFAULT_FAILOVER_TIMEOUT
           parallelSyncs := SENTINEL_DEFAULT_PARALLEL_SYNCS
           notificationScript := none
           clientReconfigScript := none
           authPass := none
           configEpoch := 0
           leader := none
           leaderEpoch := 0
           slaves := []
           sentinels := []
           failoverInProgress := false
           failoverState := .none
           failoverEpoch := 0
           promotedSlave := none }] }

/-- `createSentinelRedisInstance` for a slave or a Sentinel in the table `table`. -/
def createInstance (env : Env) (table : List Instance) (hostname : Bytes) (port : Int)
    (runid : Option Bytes) : Except Errno (List Instance) := do
  let addr ← createSentinelAddr env hostname port
  let name := instanceName hostname port
  if table.any (·.name == name) then .error .EBUSY
  else .ok (table ++ [⟨name, addr, runid, none, 0⟩])

/-! ## Reading -/

/-- The statements, in the order in which the source tries them. -/
inductive Statement where
  | monitor
  | downAfter
  | failoverTimeout
  | parallelSyncs
  | notificationScript
  | clientReconfigScript
  | authPass
  | currentEpoch
  | configEpoch
  | leaderEpoch
  | knownSlave
  | knownSentinel
  | announceIp
  | announcePort
  deriving DecidableEq

namespace Statement

/-- The word of a statement. -/
def keyword : Statement → Bytes
  | monitor => str "monitor"
  | downAfter => str "down-after-milliseconds"
  | failoverTimeout => str "failover-timeout"
  | parallelSyncs => str "parallel-syncs"
  | notificationScript => str "notification-script"
  | clientReconfigScript => str "client-reconfig-script"
  | authPass => str "auth-pass"
  | currentEpoch => str "current-epoch"
  | configEpoch => str "config-epoch"
  | leaderEpoch => str "leader-epoch"
  | knownSlave => str "known-slave"
  | knownSentinel => str "known-sentinel"
  | announceIp => str "announce-ip"
  | announcePort => str "announce-port"

/-- The number of words behind the first one. -/
def takes : Statement → Nat → Bool
  | monitor, n => n == 4
  | downAfter, n | failoverTimeout, n | parallelSyncs, n | notificationScript, n
  | clientReconfigScript, n | authPass, n | configEpoch, n | leaderEpoch, n => n == 2
  | currentEpoch, n | announceIp, n | announcePort, n => n == 1
  | knownSlave, n => n == 3
  | knownSentinel, n => n == 3 || n == 4

def all : List Statement :=
  [monitor, downAfter, failoverTimeout, parallelSyncs, notificationScript, clientReconfigScript,
    authPass, currentEpoch, configEpoch, leaderEpoch, knownSlave, knownSentinel, announceIp,
    announcePort]

end Statement

/-- The statement of a line. -/
def statementOf : List Bytes → Option Statement
  | [] => none
  | word :: args =>
    Statement.all.find? fun s => strcaseEq word s.keyword && s.takes args.length

/-- `sentinelGetMasterByName` and what is done to the master. -/
def modifyMaster (name : Bytes) (f : Master → Except String Master) :
    List Master → Except String (List Master)
  | [] => .error "No such master with specified name."
  | m :: ms =>
    if m.name = name then do
      let m ← f m
      pure (m :: ms)
    else do
      let ms ← modifyMaster name f ms
      pure (m :: ms)

def onMaster (st : SentinelState) (name : Bytes) (f : Master → Except String Master) :
    Except String SentinelState := do
  let masters ← modifyMaster name f st.masters
  pure { st with masters }

/-- What `monitor` does. -/
def handleMonitor (env : Env) (st : SentinelState) (name host port quorum : Bytes) :
    Except String SentinelState :=
  if atoi quorum ≤ 0 then .error "Quorum must be 1 or greater."
  else
    match createMaster env st name host (atoi port) (atoi quorum).toNat with
    | .ok st => .ok st
    | .error .EBUSY => .error "Duplicated master name."
    | .error .ENOENT => .error "Can't resolve master instance hostname."
    | .error .EINVAL => .error "Invalid port number"

/-- What a timeout does to the field that `set` sets. -/
def handleTimeout (st : SentinelState) (name value : Bytes) (set : Int → Master → Master) :
    Except String SentinelState :=
  onMaster st name fun ri =>
    if atoi value ≤ 0 then .error "negative or zero time parameter." else .ok (set (atoi value) ri)

/-- What a script does, which must be executable. -/
def handleScript (env : Env) (st : SentinelState) (name path : Bytes) (err : String)
    (set : Bytes → Master → Master) : Except String SentinelState :=
  onMaster st name fun ri => if env.executable path then .ok (set path ri) else .error err

/-- What `config-epoch` does. -/
def handleConfigEpoch (st : SentinelState) (name epoch : Bytes) : Except String SentinelState := do
  let st ← onMaster st name fun ri => .ok { ri with configEpoch := strtoull epoch }
  pure { st with currentEpoch := max st.currentEpoch (strtoull epoch) }

/-- What `known-slave` does. -/
def handleKnownSlave (env : Env) (st : SentinelState) (name ip port : Bytes) :
    Except String SentinelState :=
  onMaster st name fun ri =>
    match createInstance env ri.slaves ip (atoi port) none with
    | .ok slaves => .ok { ri with slaves }
    | .error _ => .error "Wrong hostname or port for slave."

/-- What `known-sentinel` does. -/
def handleKnownSentinel (env : Env) (st : SentinelState) (name ip port : Bytes)
    (runid : Option Bytes) : Except String SentinelState :=
  onMaster st name fun ri =>
    match createInstance env ri.sentinels ip (atoi port) runid with
    | .ok sentinels => .ok { ri with sentinels }
    | .error _ => .error "Wrong hostname or port for sentinel."

/-- The effect of a statement on its arguments. -/
def Statement.handle (env : Env) (st : SentinelState) :
    Statement → List Bytes → Except String SentinelState
  | monitor, [name, host, port, quorum] => handleMonitor env st name host port quorum
  | downAfter, [name, ms] =>
    handleTimeout st name ms fun v ri => { ri with downAfterPeriod := v }
  | failoverTimeout, [name, ms] =>
    handleTimeout st name ms fun v ri => { ri with failoverTimeout := v }
  | parallelSyncs, [name, n] => onMaster st name fun ri => .ok { ri with parallelSyncs := atoi n }
  | notificationScript, [name, path] =>
    handleScript env st name path "Notification script seems non existing or non executable."
      fun v ri => { ri with notificationScript := some v }
  | clientReconfigScript, [name, path] =>
    handleScript env st name path
      "Client reconfiguration script seems non existing or non executable."
      fun v ri => { ri with clientReconfigScript := some v }
  | authPass, [name, pass] => onMaster st name fun ri => .ok { ri with authPass := some pass }
  | currentEpoch, [epoch] => .ok { st with currentEpoch := max st.currentEpoch (strtoull epoch) }
  | configEpoch, [name, epoch] => handleConfigEpoch st name epoch
  | leaderEpoch, [name, epoch] =>
    onMaster st name fun ri => .ok { ri with leaderEpoch := strtoull epoch }
  | knownSlave, [name, ip, port] => handleKnownSlave env st name ip port
  | knownSentinel, [name, ip, port] => handleKnownSentinel env st name ip port none
  | knownSentinel, [name, ip, port, runid] => handleKnownSentinel env st name ip port (some runid)
  | announceIp, [ip] => .ok (if ip = [] then st else { st with announceIp := some ip })
  | announcePort, [port] => .ok { st with announcePort := atoi port }
  | _, _ => .error "Unrecognized sentinel configuration statement."

/-- `sentinelHandleConfiguration`.  All words are taken as C strings. -/
def sentinelHandleConfiguration (env : Env) (st : SentinelState) (argv : List Bytes) :
    Except String SentinelState :=
  let argv := argv.map cstr
  match statementOf argv with
  | some s => s.handle env st argv.tail
  | none => .error "Unrecognized sentinel configuration statement."

/-- A Sentinel starts on a file. -/
def loadSentinel (env : Env) (directive : Bytes → List Bytes → Option String)
    (file : Bytes) : Except String SentinelState :=
  loadServerConfig directive (sentinelHandleConfiguration env) file initSentinel

/-! ## Writing -/

def sentinelGetCurrentMasterAddress (m : Master) : Addr :=
  match m.promotedSlave with
  | some addr =>
    if m.failoverInProgress ∧ FailoverState.reconfSlaves.num ≤ m.failoverState.num then addr
    else m.addr
  | none => m.addr

/-- The words of a line about a master. -/
def masterWords (s : Statement) (m : Master) (args : List Bytes) : List Bytes :=
  sentinelOption :: s.keyword :: m.name :: args

/-- `sentinel known-slave`.  For the slave at the current address of the master the source
takes the address of the old master as `slave_addr`, but it prints `ri->addr`. -/
def knownSlaveWords (m : Master) (ri : Instance) : List Bytes :=
  masterWords .knownSlave m [ri.addr.ip, printInt ri.addr.port]

/-- `sentinel known-sentinel`. -/
def knownSentinelWords (m : Master) (ri : Instance) : List Bytes :=
  masterWords .knownSentinel m (ri.addr.ip :: printInt ri.addr.port :: ri.runid.toList)

/-- `sentinel monitor`.  The quorum is an `unsigned int` that is printed as an `int`. -/
def monitorWords (m : Master) : List Bytes :=
  let masterAddr := sentinelGetCurrentMasterAddress m
  masterWords .monitor m
    [masterAddr.ip, printInt masterAddr.port, printInt ((m.quorum : Int).bmod (2 ^ 32))]

/-- The lines of a master behind `sentinel monitor`. -/
def detailLines (m : Master) : List (List Bytes) :=
  (if m.downAfterPeriod ≠ SENTINEL_DEFAULT_DOWN_AFTER then
    [masterWords .downAfter m [printInt m.downAfterPeriod]] else []) ++
  (if m.failoverTimeout ≠ SENTINEL_DEFAULT_FAILOVER_TIMEOUT then
    [masterWords .failoverTimeout m [printInt m.failoverTimeout]] else []) ++
  (if m.parallelSyncs ≠ SENTINEL_DEFAULT_PARALLEL_SYNCS then
    [masterWords .parallelSyncs m [printInt m.parallelSyncs]] else []) ++
  (m.notificationScript.toList.map fun path => masterWords .notificationScript m [path]) ++
  (m.clientReconfigScript.toList.map fun path => masterWords .clientReconfigScript m [path]) ++
  (m.authPass.toList.map fun pass => masterWords .authPass m [pass]) ++
  [masterWords .configEpoch m [decimal m.configEpoch]] ++
  [masterWords .leaderEpoch m [decimal m.leaderEpoch]] ++
  m.slaves.map (knownSlaveWords m) ++
  m.sentinels.map (knownSentinelWords m)

def masterLines (m : Master) : List (List Bytes) :=
  monitorWords m :: detailLines m

/-- The lines that are not about a master.  Only `announce-ip` is quoted. -/
def globalLines (st : SentinelState) : List (List Bytes) :=
  [[sentinelOption, Statement.currentEpoch.keyword, decimal st.currentEpoch]] ++
  (st.announceIp.toList.map fun ip =>
    [sentinelOption, Statement.announceIp.keyword, sdscatrepr ip]) ++
  (if st.announcePort ≠ 0 then
    [[sentinelOption, Statement.announcePort.keyword, printInt st.announcePort]] else [])

/-- `rewriteConfigSentinelOption`: the lines it writes.  The order of the masters, and of
the instances of a master, is that in which their tables are visited. -/
def rewriteConfigSentinelOption (st : SentinelState) : List Bytes :=
  (st.masters.flatMap masterLines ++ globalLines st).map (List.intercalate [32])

/-- `sentinelFlushConfig`: the new file, where `others` are the calls for the options that
are not of Sentinel. -/
def sentinelFlushConfig (others : List Rewrite) (st : SentinelState) (file : Bytes) :
    Bytes :=
  rewriteConfig file (others ++ sentinelCalls (rewriteConfigSentinelOption st))

end Redis.Sentinel
