import AsyncPulse.EffectSystem
import AsyncPulse.MayCache
import AsyncPulse.Sql
import Mathlib.Tactic.Simps.Basic
set_option autoImplicit false

namespace AsyncPulse
open Effect

/-- `jose.jwt` with the service's secret: `encode` signs, `verify` checks the signature and
returns the payload. Only what `encode` signed verifies. -/
structure Jose where
  encode : Claims → Token
  verify : Token → Option Claims
  verify_encode : ∀ c, verify (encode c) = some c
  encode_verify : ∀ t c, verify t = some c → t = encode c

/-- The settings that the code reads, and the libraries it calls for tokens and passwords. -/
structure Config where
  accessTokenExpireMinutes : Int
  refreshTokenExpireDays : Int
  jose : Jose
  hashpw : String → String → Except Exc String
  checkpw : String → String → Except Exc Bool

/-- One awaited call of a collaborator, or one reading of the clock or of randomness. -/
inductive Eff : Type → Type where
  | now : Eff Time
  | uuid4 : Eff String
  | encode (c : Claims) : Eff Token
  | hashpw (password : String) : Eff String
  | selectSessions (q : SessionQuery) : Eff (List SessionModel)
  | selectUsers (q : UserQuery) : Eff (List UserModel)
  | countUsers : Eff Nat
  | write (w : Write) : Eff Unit
  | commit : Eff Unit
  | close : Eff Unit
  | cacheGet (k : Key) : Eff (Option Json)
  | cacheSet (k : Key) (v : Json) (ttl : Option Int) : Eff Unit
  | cacheDelete (k : Key) : Eff Unit

def Eff.isCommit : {β : Type} → Eff β → Bool
  | _, .commit => true
  | _, _ => false

def Eff.isCache : {β : Type} → Eff β → Bool
  | _, .cacheGet _ | _, .cacheSet _ _ _ | _, .cacheDelete _ => true
  | _, _ => false

/-- What the record of a call shows of an effect. No program reads it. -/
inductive Act where
  | clock (t : Time)
  | drew (id : String)
  | signed (c : Claims)
  | hashed
  | readSessions (q : SessionQuery) (rows : List SessionModel)
  | readUsers (q : UserQuery) (rows : List UserModel)
  | counted
  | wrote (v : Write)
  | refused (v : Write)
  | committed
  | closed
  | cacheGot (k : Key) (v : Option Json)
  | cacheSet (k : Key) (v : Json) (ttl : Option Int)
  | cacheDeleted (k : Key)
  | failed
  deriving DecidableEq, Repr

def Eff.act : {β : Type} → Eff β → Except Exc β → Act
  | _, .now, .ok t => .clock t
  | _, .uuid4, .ok u => .drew u
  | _, .encode c, .ok _ => .signed c
  | _, .hashpw _, _ => .hashed
  | _, .selectSessions q, .ok rows => .readSessions q rows
  | _, .selectUsers q, .ok rows => .readUsers q rows
  | _, .countUsers, .ok _ => .counted
  | _, .write v, .ok _ => .wrote v
  | _, .write v, .error _ => .refused v
  | _, .commit, .ok _ => .committed
  | _, .close, .ok _ => .closed
  | _, .cacheGet k, .ok v => .cacheGot k v
  | _, .cacheSet k v ttl, .ok _ => .cacheSet k v ttl
  | _, .cacheDelete k, .ok _ => .cacheDeleted k
  | _, _, _ => .failed

theorem Eff.isCommit_of_act {β : Type} {e : Eff β} {r : Except Exc β} (ha : e.act r = .committed) :
    e.isCommit = true := by
  cases e <;> cases r <;> simp only [Eff.act, reduceCtorEq] at ha
  rfl

/-- The committed tables, the open transactions, the cache and the clock. `drawn` tells
which call drew an id from `uuid4`, and `minted` which payloads were ever signed. -/
structure World (γ : Type) where
  db : Database
  pending : Nat → List Write
  locks : Lock → Option Nat
  cache : γ
  clock : Time
  drawn : String → Option Nat
  minted : List Claims
  hist : Nat → List Act

/-- What resolves an effect: the clock's next reading, a fresh id, a salt, the order in
which the database returns tied rows, whether it aborts a statement that has to wait, and
what the cache does. -/
structure Choice (χ : Type) where
  time : Time
  uuid : String
  salt : String
  rank : String → Nat
  abort : Bool
  cache : χ

namespace World

variable {γ : Type}

/-- What call `i` sees: the committed rows under its own flushed writes. -/
def view (w : World γ) (i : Nat) : Database := w.db.applyAll (w.pending i)

@[simps -fullyApplied] def log (w : World γ) (i : Nat) (a : Act) : World γ :=
  { w with hist := Function.update w.hist i (w.hist i ++ [a]) }

@[simps -fullyApplied] def setClock (w : World γ) (t : Time) : World γ := { w with clock := t }

@[simps -fullyApplied] def draw (w : World γ) (i : Nat) (u : String) : World γ :=
  { w with drawn := Function.update w.drawn u (some i) }

@[simps -fullyApplied] def mint (w : World γ) (c : Claims) : World γ :=
  { w with minted := c :: w.minted }

@[simps -fullyApplied] def setCache (w : World γ) (g : γ) : World γ := { w with cache := g }

@[simps -fullyApplied] def flush (w : World γ) (i : Nat) (v : Write) : World γ :=
  { w with
    pending := Function.update w.pending i (w.pending i ++ [v])
    locks := fun l => if l ∈ v.locks then some i else w.locks l }

@[simps -fullyApplied] def release (w : World γ) (i : Nat) : World γ :=
  { w with
    pending := Function.update w.pending i []
    locks := fun l => if w.locks l = some i then none else w.locks l }

@[simps -fullyApplied] def commit (w : World γ) (i : Nat) : World γ :=
  { w.release i with db := w.view i }

/-- A statement has to wait while another transaction holds one of its locks. -/
def blocked (w : World γ) (i : Nat) (v : Write) : Bool :=
  v.locks.any fun l => w.locks l ≠ none && w.locks l ≠ some i

def freshId (w : World γ) (u : String) : Bool :=
  u ≠ "" && (w.drawn u).isNone && (w.db.users.get u).isNone

end World

variable {γ χ : Type}

def handle (cfg : Config) (C : MayCache Key Json γ χ) (i : Nat) (c : Choice χ) (w : World γ) :
    {β : Type} → Eff β → Option (Except Exc β × World γ)
  | _, .now => if w.clock ≤ c.time then some (.ok c.time, w.setClock c.time) else none
  | _, .uuid4 => if w.freshId c.uuid then some (.ok c.uuid, w.draw i c.uuid) else none
  | _, .encode cl => some (.ok (cfg.jose.encode cl), w.mint cl)
  | _, .hashpw pw => some (cfg.hashpw c.salt pw, w)
  | _, .selectSessions q => some (.ok (q.eval c.rank (w.view i).sessions), w)
  | _, .selectUsers q => some (.ok (q.eval c.rank (w.view i).users), w)
  | _, .countUsers =>
    some (.ok ((w.view i).users.rows.filter fun r => r.deletedAt.isNone).length, w)
  | _, .write v =>
    if w.blocked i v then
      if c.abort then some (.error .operationalError, w) else none
    else if !(w.view i).admits v then some (.error .integrityError, w)
    else if !v.fits then some (.error .dataError, w)
    else some (.ok (), w.flush i v)
  | _, .commit => some (.ok (), w.commit i)
  | _, .close => some (.ok (), w.release i)
  | _, .cacheGet k =>
    some (.ok (C.get i c.cache w.clock k w.cache).1,
      w.setCache (C.get i c.cache w.clock k w.cache).2)
  | _, .cacheSet k v ttl =>
    some (.ok (), w.setCache (C.set i c.cache w.clock k v (ttl.map seconds) w.cache))
  | _, .cacheDelete k => some (.ok (), w.setCache (C.delete i c.cache w.clock k w.cache))

def semantics (cfg : Config) (C : MayCache Key Json γ χ) : Sem Eff Exc (World γ) (Choice χ) where
  step i c w e := (handle cfg C i c w e).map fun x => (x.1, x.2.log i (e.act x.1))

/-- A system with users but no session, nothing cached and nobody at work. -/
structure Init (C : MayCache Key Json γ χ) (w : World γ) : Prop where
  noSession : w.db.sessions.rows = []
  userIds : ∀ u ∈ w.db.users.rows, u.id ≠ ""
  pending : ∀ i, w.pending i = []
  locks : ∀ l, w.locks l = none
  cache : ∀ k v, ¬ C.holds w.cache k v
  drawn : ∀ u, w.drawn u = none
  minted : w.minted = []
  hist : ∀ i, w.hist i = []

end AsyncPulse
