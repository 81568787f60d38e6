import Redis.Commands.Keys

/-!
# Redis.Commands.Table

The whole of `redisCommandTable`, as far as it is about keys: `getKeysFromCommand` returns
positions inside the argument vector, but for a negative number of keys.
-/

namespace Redis.Commands

open List

open Redis.Config (str cstr)
open Redis.Sentinel (atoi)
open Redis.Bus (strcaseEq)

/-! ## The procedures -/

/-- `evalGetKeys`; a negative number is the number of keys it returns, and the size it allocates
for them is not one. -/
def evalGetKeys (argv : List Bytes) : Option (List Nat) :=
  let num := atoi (argv.getD 2 [])
  if num > argv.length - 3 then some []
  else if num < 0 then none
  else some ((range num.toNat).map (3 + ·))

/-- `skiplist` of `sortGetKeys`: the options with arguments, and the number of these. -/
def skiplist : List (Bytes × Nat) := [(str "limit", 2), (str "get", 1), (str "by", 1)]

/-- The loop of `sortGetKeys` over the arguments from `i` on, where `skip` of them are passed
over.  It returns the position behind the last `STORE`. -/
@[grind =]
def sortGetKeysLoop : (i skip : Nat) → List Bytes → Option Nat → Option Nat
  | _, _, [], store => store
  | i, skip + 1, _ :: args, store => sortGetKeysLoop (i + 1) skip args store
  | i, 0, arg :: args, store =>
    match skiplist.find? fun e => strcaseEq (cstr arg) e.1 with
    | some (_, skip) => sortGetKeysLoop (i + 1) skip args store
    | none =>
      if strcaseEq (cstr arg) (str "store") ∧ args ≠ [] then
        sortGetKeysLoop (i + 1) 0 args (some (i + 1))
      else sortGetKeysLoop (i + 1) 0 args store

def sortGetKeys (argv : List Bytes) : Option (List Nat) :=
  some (1 :: (sortGetKeysLoop 2 0 (argv.drop 2) none).toList)

/-! ## The table -/

/-- The values of the column `getkeys_proc`. -/
inductive GetkeysProc where
  | zunionInterGetKeys
  | evalGetKeys
  | sortGetKeys
  deriving DecidableEq

/-- The function of a procedure. -/
def GetkeysProc.run : GetkeysProc → List Bytes → Option (List Nat)
  | .zunionInterGetKeys => Commands.zunionInterGetKeys
  | .evalGetKeys => Commands.evalGetKeys
  | .sortGetKeys => Commands.sortGetKeys

structure Row where
  name : String
  arity : Int
  getkeysProc : Option GetkeysProc
  firstkey : Nat
  lastkey : Int
  keystep : Nat

/-- The fields of the row as a `redisCommand`. -/
def Row.command (r : Row) : RedisCommand :=
  ⟨r.arity, r.getkeysProc.map GetkeysProc.run, r.firstkey, r.lastkey, r.keystep⟩

/-- The rows of `redisCommandTable`. -/
def serverCommands : List Row :=
  [⟨"get", 2, none, 1, 1, 1⟩, ⟨"set", -3, none, 1, 1, 1⟩, ⟨"setnx", 3, none, 1, 1, 1⟩,
    ⟨"setex", 4, none, 1, 1, 1⟩, ⟨"psetex", 4, none, 1, 1, 1⟩, ⟨"append", 3, none, 1, 1, 1⟩,
    ⟨"strlen", 2, none, 1, 1, 1⟩, ⟨"del", -2, none, 1, -1, 1⟩, ⟨"exists", 2, none, 1, 1, 1⟩,
    ⟨"setbit", 4, none, 1, 1, 1⟩, ⟨"getbit", 3, none, 1, 1, 1⟩, ⟨"setrange", 4, none, 1, 1, 1⟩,
    ⟨"getrange", 4, none, 1, 1, 1⟩, ⟨"substr", 4, none, 1, 1, 1⟩, ⟨"incr", 2, none, 1, 1, 1⟩,
    ⟨"decr", 2, none, 1, 1, 1⟩, ⟨"mget", -2, none, 1, -1, 1⟩, ⟨"rpush", -3, none, 1, 1, 1⟩,
    ⟨"lpush", -3, none, 1, 1, 1⟩, ⟨"rpushx", 3, none, 1, 1, 1⟩, ⟨"lpushx", 3, none, 1, 1, 1⟩,
    ⟨"linsert", 5, none, 1, 1, 1⟩, ⟨"rpop", 2, none, 1, 1, 1⟩, ⟨"lpop", 2, none, 1, 1, 1⟩,
    ⟨"brpop", -3, none, 1, 1, 1⟩, ⟨"brpoplpush", 4, none, 1, 2, 1⟩, ⟨"blpop", -3, none, 1, -2, 1⟩,
    ⟨"llen", 2, none, 1, 1, 1⟩, ⟨"lindex", 3, none, 1, 1, 1⟩, ⟨"lset", 4, none, 1, 1, 1⟩,
    ⟨"lrange", 4, none, 1, 1, 1⟩, ⟨"ltrim", 4, none, 1, 1, 1⟩, ⟨"lrem", 4, none, 1, 1, 1⟩,
    ⟨"rpoplpush", 3, none, 1, 2, 1⟩, ⟨"sadd", -3, none, 1, 1, 1⟩, ⟨"srem", -3, none, 1, 1, 1⟩,
    ⟨"smove", 4, none, 1, 2, 1⟩, ⟨"sismember", 3, none, 1, 1, 1⟩, ⟨"scard", 2, none, 1, 1, 1⟩,
    ⟨"spop", 2, none, 1, 1, 1⟩, ⟨"srandmember", -2, none, 1, 1, 1⟩, ⟨"sinter", -2, none, 1, -1, 1⟩,
    ⟨"sinterstore", -3, none, 1, -1, 1⟩, ⟨"sunion", -2, none, 1, -1, 1⟩,
    ⟨"sunionstore", -3, none, 1, -1, 1⟩, ⟨"sdiff", -2, none, 1, -1, 1⟩,
    ⟨"sdiffstore", -3, none, 1, -1, 1⟩, ⟨"smembers", 2, none, 1, 1, 1⟩,
    ⟨"sscan", -3, none, 1, 1, 1⟩, ⟨"zadd", -4, none, 1, 1, 1⟩, ⟨"zincrby", 4, none, 1, 1, 1⟩,
    ⟨"zrem", -3, none, 1, 1, 1⟩, ⟨"zremrangebyscore", 4, none, 1, 1, 1⟩,
    ⟨"zremrangebyrank", 4, none, 1, 1, 1⟩, ⟨"zremrangebylex", 4, none, 1, 1, 1⟩,
    ⟨"zunionstore", -4, some .zunionInterGetKeys, 0, 0, 0⟩,
    ⟨"zinterstore", -4, some .zunionInterGetKeys, 0, 0, 0⟩, ⟨"zrange", -4, none, 1, 1, 1⟩,
    ⟨"zrangebyscore", -4, none, 1, 1, 1⟩, ⟨"zrevrangebyscore", -4, none, 1, 1, 1⟩,
    ⟨"zrangebylex", -4, none, 1, 1, 1⟩, ⟨"zrevrangebylex", -4, none, 1, 1, 1⟩,
    ⟨"zcount", 4, none, 1, 1, 1⟩, ⟨"zlexcount", 4, none, 1, 1, 1⟩, ⟨"zrevrange", -4, none, 1, 1, 1⟩,
    ⟨"zcard", 2, none, 1, 1, 1⟩, ⟨"zscore", 3, none, 1, 1, 1⟩, ⟨"zrank", 3, none, 1, 1, 1⟩,
    ⟨"zrevrank", 3, none, 1, 1, 1⟩, ⟨"zscan", -3, none, 1, 1, 1⟩, ⟨"hset", 4, none, 1, 1, 1⟩,
    ⟨"hsetnx", 4, none, 1, 1, 1⟩, ⟨"hget", 3, none, 1, 1, 1⟩, ⟨"hmset", -4, none, 1, 1, 1⟩,
    ⟨"hmget", -3, none, 1, 1, 1⟩, ⟨"hincrby", 4, none, 1, 1, 1⟩, ⟨"hincrbyfloat", 4, none, 1, 1, 1⟩,
    ⟨"hdel", -3, none, 1, 1, 1⟩, ⟨"hlen", 2, none, 1, 1, 1⟩, ⟨"hkeys", 2, none, 1, 1, 1⟩,
    ⟨"hvals", 2, none, 1, 1, 1⟩, ⟨"hgetall", 2, none, 1, 1, 1⟩, ⟨"hexists", 3, none, 1, 1, 1⟩,
    ⟨"hscan", -3, none, 1, 1, 1⟩, ⟨"incrby", 3, none, 1, 1, 1⟩, ⟨"decrby", 3, none, 1, 1, 1⟩,
    ⟨"incrbyfloat", 3, none, 1, 1, 1⟩, ⟨"getset", 3, none, 1, 1, 1⟩, ⟨"mset", -3, none, 1, -1, 2⟩,
    ⟨"msetnx", -3, none, 1, -1, 2⟩, ⟨"randomkey", 1, none, 0, 0, 0⟩, ⟨"select", 2, none, 0, 0, 0⟩,
    ⟨"move", 3, none, 1, 1, 1⟩, ⟨"rename", 3, none, 1, 2, 1⟩, ⟨"renamenx", 3, none, 1, 2, 1⟩,
    ⟨"expire", 3, none, 1, 1, 1⟩, ⟨"expireat", 3, none, 1, 1, 1⟩, ⟨"pexpire", 3, none, 1, 1, 1⟩,
    ⟨"pexpireat", 3, none, 1, 1, 1⟩, ⟨"keys", 2, none, 0, 0, 0⟩, ⟨"scan", -2, none, 0, 0, 0⟩,
    ⟨"dbsize", 1, none, 0, 0, 0⟩, ⟨"auth", 2, none, 0, 0, 0⟩, ⟨"ping", -1, none, 0, 0, 0⟩,
    ⟨"echo", 2, none, 0, 0, 0⟩, ⟨"save", 1, none, 0, 0, 0⟩, ⟨"bgsave", 1, none, 0, 0, 0⟩,
    ⟨"bgrewriteaof", 1, none, 0, 0, 0⟩, ⟨"shutdown", -1, none, 0, 0, 0⟩,
    ⟨"lastsave", 1, none, 0, 0, 0⟩, ⟨"type", 2, none, 1, 1, 1⟩, ⟨"multi", 1, none, 0, 0, 0⟩,
    ⟨"exec", 1, none, 0, 0, 0⟩, ⟨"discard", 1, none, 0, 0, 0⟩, ⟨"sync", 1, none, 0, 0, 0⟩,
    ⟨"psync", 3, none, 0, 0, 0⟩, ⟨"replconf", -1, none, 0, 0, 0⟩, ⟨"flushdb", 1, none, 0, 0, 0⟩,
    ⟨"flushall", 1, none, 0, 0, 0⟩, ⟨"sort", -2, some .sortGetKeys, 1, 1, 1⟩,
    ⟨"info", -1, none, 0, 0, 0⟩, ⟨"monitor", 1, none, 0, 0, 0⟩, ⟨"ttl", 2, none, 1, 1, 1⟩,
    ⟨"pttl", 2, none, 1, 1, 1⟩, ⟨"persist", 2, none, 1, 1, 1⟩, ⟨"slaveof", 3, none, 0, 0, 0⟩,
    ⟨"role", 1, none, 0, 0, 0⟩, ⟨"debug", -2, none, 0, 0, 0⟩, ⟨"config", -2, none, 0, 0, 0⟩,
    ⟨"subscribe", -2, none, 0, 0, 0⟩, ⟨"unsubscribe", -1, none, 0, 0, 0⟩,
    ⟨"psubscribe", -2, none, 0, 0, 0⟩, ⟨"punsubscribe", -1, none, 0, 0, 0⟩,
    ⟨"publish", 3, none, 0, 0, 0⟩, ⟨"pubsub", -2, none, 0, 0, 0⟩, ⟨"watch", -2, none, 1, -1, 1⟩,
    ⟨"unwatch", 1, none, 0, 0, 0⟩, ⟨"cluster", -2, none, 0, 0, 0⟩, ⟨"restore", -4, none, 1, 1, 1⟩,
    ⟨"restore-asking", -4, none, 1, 1, 1⟩, ⟨"migrate", -6, none, 0, 0, 0⟩,
    ⟨"asking", 1, none, 0, 0, 0⟩, ⟨"readonly", 1, none, 0, 0, 0⟩, ⟨"readwrite", 1, none, 0, 0, 0⟩,
    ⟨"dump", 2, none, 1, 1, 1⟩, ⟨"object", 3, none, 2, 2, 2⟩, ⟨"client", -2, none, 0, 0, 0⟩,
    ⟨"eval", -3, some .evalGetKeys, 0, 0, 0⟩, ⟨"evalsha", -3, some .evalGetKeys, 0, 0, 0⟩,
    ⟨"slowlog", -2, none, 0, 0, 0⟩, ⟨"script", -2, none, 0, 0, 0⟩, ⟨"time", 1, none, 0, 0, 0⟩,
    ⟨"bitop", -4, none, 2, -1, 1⟩, ⟨"bitcount", -2, none, 1, 1, 1⟩, ⟨"bitpos", -3, none, 1, 1, 1⟩,
    ⟨"wait", 3, none, 0, 0, 0⟩, ⟨"command", 0, none, 0, 0, 0⟩, ⟨"pfselftest", 1, none, 0, 0, 0⟩,
    ⟨"pfadd", -2, none, 1, 1, 1⟩, ⟨"pfcount", -2, none, 1, 1, 1⟩, ⟨"pfmerge", -2, none, 1, -1, 1⟩,
    ⟨"pfdebug", -3, none, 0, 0, 0⟩, ⟨"latency", -2, none, 0, 0, 0⟩]

section Rows

variable (r : Row) (argv : List Bytes)

/-- The check of the arity in `processCommand`. -/
def Row.arityOk : Bool :=
  !((decide (r.arity > 0) && r.arity != argv.length) || decide ((argv.length : Int) < -r.arity))

def Row.getKeysFromCommand : Option (List Nat) :=
  match r.getkeysProc with
  | some getkeysProc => getkeysProc.run argv
  | none => getKeysUsingCommandTable r.command argv

/-- `getKeysFromCommand` returns positions inside the argument vector, behind the name. -/
def Row.KeysInRange : Prop :=
  ∃ keys, r.getKeysFromCommand argv = some keys ∧ ∀ j ∈ keys, 1 ≤ j ∧ j < argv.length

/-- The procedure reads a number of keys. -/
def Row.readsNumber : Prop :=
  r.getkeysProc = some .zunionInterGetKeys ∨ r.getkeysProc = some .evalGetKeys

/-- The arguments that the check of the arity lets through are enough for the keys. -/
def Row.Placed : Prop :=
  match r.getkeysProc with
  | some .zunionInterGetKeys => 3 ≤ r.arity.natAbs
  | some .evalGetKeys => 3 ≤ r.arity.natAbs
  | some .sortGetKeys => 2 ≤ r.arity.natAbs
  | none => r.firstkey = 0 ∨ 0 < r.keystep ∧ r.lastkey < r.arity.natAbs

instance : Decidable r.Placed := by
  unfold Row.Placed
  split <;> infer_instance

end Rows

/-- The rows of the commands with more than one key are those of the table. -/
theorem redisCommandTable_row (cmd : Command) :
    redisCommandTable cmd ∈ serverCommands.map Row.command := by
  have row_at {r : RedisCommand} (i : Nat) (h : (serverCommands.map Row.command)[i]? = some r) :
      r ∈ serverCommands.map Row.command := mem_of_getElem? h
  cases cmd
  exacts [row_at 7 rfl, row_at 16 rfl, row_at 88 rfl, row_at 89 rfl, row_at 93 rfl,
    row_at 33 rfl, row_at 26 rfl, row_at 24 rfl, row_at 25 rfl, row_at 36 rfl, row_at 41 rfl,
    row_at 42 rfl, row_at 43 rfl, row_at 44 rfl, row_at 45 rfl, row_at 46 rfl, row_at 55 rfl,
    row_at 56 rfl, row_at 158 rfl, row_at 159 rfl, row_at 160 rfl, row_at 152 rfl,
    row_at 135 rfl]

/-! ## Positions in range -/

/-- The position behind a `STORE` is that of an argument. -/
theorem sortGetKeysLoop_range {i skip : Nat} {args : List Bytes} {store : Option Nat}
    {j : Nat} (h : sortGetKeysLoop i skip args store = some j) :
    store = some j ∨ i < j ∧ j < i + args.length := by
  fun_induction sortGetKeysLoop i skip args store with
  | case1 i skip store => exact .inl h
  | case2 i skip arg args store ih =>
    rcases ih h with hstore | hrange
    · exact .inl hstore
    · rw [length_cons]
      omega
  | case3 i arg args store name skip hfind ih =>
    rcases ih h with hstore | hrange
    · exact .inl hstore
    · rw [length_cons]
      omega
  | case4 i arg args store hfind hstore ih =>
    have hlength := length_pos_iff.mpr hstore.2
    rw [length_cons]
    rcases ih h with hnext | hrange
    · obtain rfl := Option.some.inj hnext
      omega
    · omega
  | case5 i arg args store hfind hstore ih =>
    rcases ih h with hstore | hrange
    · exact .inl hstore
    · rw [length_cons]
      omega

section InRange

variable {r : Row} {argv : List Bytes}

set_option maxRecDepth 2000 in
/-- Every row is placed inside the arguments that its arity lets through. -/
theorem placed_of_mem (h : r ∈ serverCommands) : r.Placed := by
  revert r
  decide

theorem natAbs_le_of_arityOk (h : r.arityOk argv) : r.arity.natAbs ≤ argv.length := by
  simp [Row.arityOk] at h
  omega

theorem keysInRange_table (hproc : r.getkeysProc = none) (hplaced : r.Placed)
    (harity : r.arityOk argv) : r.KeysInRange argv := by
  have hlength := natAbs_le_of_arityOk harity
  simp only [Row.Placed, hproc] at hplaced
  simp only [Row.KeysInRange, Row.getKeysFromCommand, hproc, getKeysUsingCommandTable, Row.command]
  by_cases hfirst : r.firstkey = 0
  · exact ⟨[], if_pos hfirst, by simp⟩
  obtain ⟨hstep, hlast⟩ := hplaced.resolve_left hfirst
  rw [if_neg hfirst]
  set last := if r.lastkey < 0 then (argv.length : Int) + r.lastkey else r.lastkey with hdef
  have hbound : (last + 1).toNat ≤ argv.length := by
    split at hdef <;> omega
  have hmem : ∀ j ∈ indices r.firstkey (last + 1).toNat r.keystep, 1 ≤ j ∧ j < argv.length := by
    intro j hj
    rw [mem_indices hstep] at hj
    omega
  refine ⟨_, if_pos (all_eq_true.mpr fun j hj => decide_eq_true (hmem j hj).2), hmem⟩

theorem numbered_range {num : Int} {argc j : Nat} (hnum : num ≤ argc - 3)
    (hj : j ∈ (range num.toNat).map (3 + ·)) : 1 ≤ j ∧ j < argc := by
  obtain ⟨i, hi, rfl⟩ := mem_map.mp hj
  rw [mem_range] at hi
  omega

theorem keysInRange_zunionInter (hproc : r.getkeysProc = some .zunionInterGetKeys)
    (hplaced : r.Placed) (harity : r.arityOk argv) :
    r.KeysInRange argv ↔ ¬ atoi (argv.getD 2 []) < 0 := by
  have hlength := natAbs_le_of_arityOk harity
  simp only [Row.Placed, hproc] at hplaced
  simp only [Row.KeysInRange, Row.getKeysFromCommand, hproc, GetkeysProc.run,
    Commands.zunionInterGetKeys]
  by_cases hmany : atoi (argv.getD 2 []) > argv.length - 3
  · rw [if_pos hmany]
    exact iff_of_true ⟨[], rfl, by simp⟩ (by omega)
  rw [if_neg hmany]
  by_cases hneg : atoi (argv.getD 2 []) < 0
  · rw [if_pos hneg]
    exact iff_of_false (by simp) (not_not.mpr hneg)
  rw [if_neg hneg]
  refine iff_of_true ⟨_, rfl, fun j hj => ?_⟩ hneg
  rcases mem_append.mp hj with hj | hj
  · exact numbered_range (by omega) hj
  · rw [mem_singleton.mp hj]
    omega

theorem keysInRange_eval (hproc : r.getkeysProc = some .evalGetKeys) (hplaced : r.Placed)
    (harity : r.arityOk argv) : r.KeysInRange argv ↔ ¬ atoi (argv.getD 2 []) < 0 := by
  have hlength := natAbs_le_of_arityOk harity
  simp only [Row.Placed, hproc] at hplaced
  simp only [Row.KeysInRange, Row.getKeysFromCommand, hproc, GetkeysProc.run, Commands.evalGetKeys]
  by_cases hmany : atoi (argv.getD 2 []) > argv.length - 3
  · rw [if_pos hmany]
    exact iff_of_true ⟨[], rfl, by simp⟩ (by omega)
  rw [if_neg hmany]
  by_cases hneg : atoi (argv.getD 2 []) < 0
  · rw [if_pos hneg]
    exact iff_of_false (by simp) (not_not.mpr hneg)
  · rw [if_neg hneg]
    exact iff_of_true ⟨_, rfl, fun j hj => numbered_range (by omega) hj⟩ hneg

theorem keysInRange_sort (hproc : r.getkeysProc = some .sortGetKeys) (hplaced : r.Placed)
    (harity : r.arityOk argv) : r.KeysInRange argv := by
  have hlength := natAbs_le_of_arityOk harity
  simp only [Row.Placed, hproc] at hplaced
  simp only [Row.KeysInRange, Row.getKeysFromCommand, hproc, GetkeysProc.run, Commands.sortGetKeys]
  refine ⟨_, rfl, fun j hj => ?_⟩
  rcases mem_cons.mp hj with rfl | hj
  · omega
  rw [Option.mem_toList] at hj
  rcases sortGetKeysLoop_range hj with hnone | hrange
  · cases hnone
  · rw [length_drop] at hrange
    omega

/-- The positions are in range for every argument vector that passes the check of the arity,
unless a procedure reads a negative number of keys. -/
theorem keysInRange_iff (hmem : r ∈ serverCommands) (harity : r.arityOk argv) :
    r.KeysInRange argv ↔ ¬ (r.readsNumber ∧ atoi (argv.getD 2 []) < 0) := by
  have hplaced := placed_of_mem hmem
  cases hproc : r.getkeysProc with
  | none => simp [Row.readsNumber, hproc, keysInRange_table hproc hplaced harity]
  | some getkeysProc =>
    cases getkeysProc with
    | zunionInterGetKeys =>
      simp [Row.readsNumber, hproc, keysInRange_zunionInter hproc hplaced harity]
    | evalGetKeys => simp [Row.readsNumber, hproc, keysInRange_eval hproc hplaced harity]
    | sortGetKeys => simp [Row.readsNumber, hproc, keysInRange_sort hproc hplaced harity]

end InRange

set_option maxRecDepth 2000 in
/-- `EVAL s 1 k`. -/
theorem keysInRange_evalOne :
    (⟨"eval", -3, some .evalGetKeys, 0, 0, 0⟩ : Row).KeysInRange
      [str "eval", str "s", str "1", str "k"] :=
  (keysInRange_iff (mem_of_getElem? (rfl : serverCommands[147]? = some _)) (by decide)).mpr
    fun h => absurd h.2 (by decide)

set_option maxRecDepth 2000 in
/-- `EVAL s -1` and `ZUNIONSTORE d -1 k` pass the check of the arity. -/
theorem keys_negative_number :
    (∃ r ∈ serverCommands, r.name = "eval" ∧ r.arityOk [str "eval", str "s", str "-1"] ∧
      ¬ r.KeysInRange [str "eval", str "s", str "-1"]) ∧
    ∃ r ∈ serverCommands, r.name = "zunionstore" ∧
      r.arityOk [str "zunionstore", str "d", str "-1", str "k"] ∧
      ¬ r.KeysInRange [str "zunionstore", str "d", str "-1", str "k"] := by
  refine ⟨⟨_, mem_of_getElem? (rfl : serverCommands[147]? = some _), rfl, by decide, ?_⟩,
    _, mem_of_getElem? (rfl : serverCommands[55]? = some _), rfl, by decide, ?_⟩
  · rw [keysInRange_eval rfl (by decide) (by decide)]
    decide
  · rw [keysInRange_zunionInter rfl (by decide) (by decide)]
    decide

end Redis.Commands
