import Mathlib.Data.Finmap
import Mathlib.Data.List.Sort
import DistributedSystems.ShardKv.Group

-- The configurations of package `shardcfg`, with the servers of each group.
namespace Shardcfg

abbrev Shard := ShardKv.Shard

abbrev Tgid := ShardKv.Gid

-- A `map[tester.Tgid][]string`.
abbrev Groups := Finmap fun _ : Tgid => List String

-- The order in which Go runs through a map. It is chosen anew for each `range`, the number tells
-- them apart.
structure MapOrder where
  keys  : Groups → Nat → List Tgid
  nodup : ∀ m k, (keys m k).Nodup
  mem   : ∀ m k gid, gid ∈ keys m k ↔ gid ∈ m

structure ShardConfig where
  num    : Int
  shards : Shard → Tgid
  groups : Groups
  deriving DecidableEq

-- What `analyze` returns: the groups with the most and the fewest shards, and their numbers of
-- shards.
structure Load where
  mg : Tgid
  mn : Int
  lg : Tgid
  ln : Int
  deriving DecidableEq

def Load.visit (counts : Tgid → Int) (load : Load) (g : Tgid) : Load :=
  let load := if counts g < load.ln then { load with ln := counts g, lg := g } else load
  if counts g > load.mn then { load with mn := counts g, mg := g } else load

namespace ShardConfig

def make : ShardConfig where
  num      := 0
  shards _ := 0
  groups   := ∅

def counts (c : ShardConfig) : Tgid → Int :=
  (List.ofFn c.shards).foldl (fun counts g => Function.update counts g (counts g + 1)) fun _ => 0

-- The keys come in the order of a `range` over the groups and are sorted.
def analyze (c : ShardConfig) (keys : List Tgid) : Load :=
  (keys.insertionSort (· ≤ ·)).foldl (.visit c.counts) { mn := -1, mg := -1, ln := 257, lg := -1 }

def least (c : ShardConfig) (keys : List Tgid) : Tgid :=
  (c.analyze keys).lg

def setShard (c : ShardConfig) (s : Shard) (gid : Tgid) : ShardConfig :=
  { c with shards := Function.update c.shards s gid }

-- The loop over `c.Shards` runs through a copy, since `c.Shards` is an array.
def assignShard (c : ShardConfig) (order : MapOrder) (cfg : ShardConfig) (s : Shard) :
    ShardConfig :=
  if c.shards s ∈ cfg.groups then cfg
  else cfg.setShard s (cfg.least (order.keys cfg.groups (s + 1)))

def assign (c : ShardConfig) (order : MapOrder) : ShardConfig :=
  (List.finRange 12).foldl (c.assignShard order) c

def moveOne (c : ShardConfig) (mg lg : Tgid) : ShardConfig :=
  match (List.finRange 12).find? (c.shards · = mg) with
  | some s => c.setShard s lg
  | none   => c

-- The loop without a condition. There is no result if it has not ended after the given number of
-- rounds.
def balance (order : MapOrder) : Nat → Nat → ShardConfig → Option ShardConfig
  | 0,          _, _ => none
  | rounds + 1, k, c =>
    let load := c.analyze (order.keys c.groups k)
    if load.mn < load.ln + 2 then some c
    else balance order rounds (k + 1) (c.moveOne load.mg load.lg)

def rebalance (c : ShardConfig) (order : MapOrder) (rounds : Nat) : Option ShardConfig :=
  if c.groups.keys.card < 1
  then some { c with shards := fun _ => 0 }
  else balance order rounds 13 (c.assign order)

-- Whether one of the servers is in a group already.
def HasServer (c : ShardConfig) (servers : List String) : Prop :=
  ∃ xgid ∈ c.groups.keys, ∃ s₁ ∈ (c.groups.lookup xgid).getD [], ∃ s₂ ∈ servers, s₁ = s₂

instance (c : ShardConfig) (servers : List String) : Decidable (c.HasServer servers) :=
  inferInstanceAs (Decidable (∃ xgid ∈ _, _))

-- The loop over the joining groups. There is no result if `log.Fatalf` ends the process.
def joinGroups (servers : Groups) : List Tgid → Bool → ShardConfig → Option (ShardConfig × Bool)
  | [],          changed, c => if changed then some ({ c with num := c.num + 1 }, true) else none
  | gid :: gids, _,       c =>
    let srvs := (servers.lookup gid).getD []
    if gid ∈ c.groups then some (c, false)
    else if c.HasServer srvs then none
    else joinGroups servers gids true { c with groups := c.groups.insert gid srvs }

def join (c : ShardConfig) (order : MapOrder) (servers : Groups) : Option (ShardConfig × Bool) :=
  joinGroups servers (order.keys servers 0) false c

def leaveGroups : List Tgid → Bool → ShardConfig → Option (ShardConfig × Bool)
  | [],          changed, c => if changed then some ({ c with num := c.num + 1 }, true) else none
  | gid :: gids, _,       c =>
    if gid ∈ c.groups then leaveGroups gids true { c with groups := c.groups.erase gid }
    else some (c, false)

def leave (c : ShardConfig) (gids : List Tgid) : Option (ShardConfig × Bool) :=
  leaveGroups gids false c

-- The common part of `JoinBalance` and `LeaveBalance`.
def thenBalance (order : MapOrder) (rounds : Nat) : ShardConfig × Bool → Option (ShardConfig × Bool)
  | (c, false) => some (c, false)
  | (c, true)  => (c.rebalance order rounds).map (·, true)

def joinBalance (c : ShardConfig) (order : MapOrder) (rounds : Nat) (servers : Groups) :
    Option (ShardConfig × Bool) :=
  (c.join order servers).bind (thenBalance order rounds)

def leaveBalance (c : ShardConfig) (order : MapOrder) (rounds : Nat) (gids : List Tgid) :
    Option (ShardConfig × Bool) :=
  (c.leave gids).bind (thenBalance order rounds)

end ShardConfig
end Shardcfg
