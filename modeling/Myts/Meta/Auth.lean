import Myts.Lib.Bytes
import Myts.Lib.Run
import Myts.Meta.Data

namespace Meta

def Data.user (data : Data) (username : String) : Option Influx.UserInfo :=
  data.data.users.find? (·.name = username)

namespace Auth

-- The functions of the packages `bcrypt` and `sha256`.
structure Crypto where
  compareHashAndPassword : Bytes → Bytes → Option String
  sum256 : Bytes → Bytes

-- `[]byte(s)`
def bytes (s : String) : Bytes :=
  s.toUTF8.data.toList

def hashWithSalt (X : Crypto) (salt : Bytes) (password : String) : Bytes :=
  X.sum256 (salt ++ bytes password)

-- The salted hashes of different passwords differ.
def Crypto.Separates (X : Crypto) : Prop :=
  ∀ salt p q, hashWithSalt X salt p = hashWithSalt X salt q → p = q

def Crypto.Matches (X : Crypto) (hash password : String) : Prop :=
  X.compareHashAndPassword (bytes hash) (bytes password) = none

instance : Decidable (Crypto.Matches X bhash password) :=
  inferInstanceAs (Decidable (_ = _))

structure AuthUser where
  bhash : String
  salt : Bytes
  hash : Bytes
deriving DecidableEq

inductive Error
  | userNotFound
  | authenticate
  | other (e : String)
deriving DecidableEq

structure Client where
  cacheData : Data
  authCache : GoMap String AuthUser

namespace Client

-- A new client that has loaded its first snapshot.
def opened (data : Data) : Client where
  cacheData := data
  authCache := ∅

-- The salt that is read from the source of random numbers, or why it can not be read.
abbrev Salt := Except String Bytes

def saltedHash (X : Crypto) (salt : Salt) (password : String) : Except String (Bytes × Bytes) :=
  salt.map fun s => (s, hashWithSalt X s password)

-- The cached entry, if the password is the one that it was made for.
def Cached (X : Crypto) (c : Client) (username password : String) : Prop :=
  ∃ au ∈ c.authCache.lookup username, hashWithSalt X au.salt password = au.hash

instance : Decidable (Cached X c username password) :=
  inferInstanceAs (Decidable (∃ au ∈ c.authCache.lookup username, _))

def authenticate (X : Crypto) (c : Client) (username password : String) (salt : Salt) :
    Except Error Influx.UserInfo × Client :=
  match c.cacheData.user username with
  | none => (.error .userNotFound, c)
  | some userInfo =>
    if c.Cached X username password then
      (.ok userInfo, c)
    else if ¬X.Matches userInfo.hash password then
      (.error .authenticate, c)
    else
      match saltedHash X salt password with
      | .error e => (.error (.other e), c)
      | .ok (salt, hashed) =>
        let au := { salt, hash := hashed, bhash := userInfo.hash }
        (.ok userInfo, { c with authCache := c.authCache.insert username au })

-- One turn of the loop of `updateAuthCache`.
def keepUser (old new : GoMap String AuthUser) (userInfo : Influx.UserInfo) :
    GoMap String AuthUser :=
  match old.lookup userInfo.name with
  | none => new
  | some cached => if cached.bhash = userInfo.hash then new.insert userInfo.name cached else new

def updateAuthCache (c : Client) : Client :=
  { c with authCache := c.cacheData.data.users.foldl (keepUser c.authCache) ∅ }

-- What `pollForUpdates` does with a snapshot under the lock, as far as users are concerned.
def update (c : Client) (data : Data) : Client :=
  updateAuthCache { c with cacheData := data }

inductive Event
  | authenticate (username password : String) (salt : Salt)
  | update (data : Data)

def step (X : Crypto) (c : Client) : Event → Client
  | .authenticate username password salt => (c.authenticate X username password salt).snd
  | .update data => c.update data

-- The states that a client can get to, from any first snapshot by any calls and updates.
def Reachable (X : Crypto) (c : Client) : Prop :=
  ∃ data, Run (step X) (fun _ _ => True) (opened data) c

end Client

-- A present user has this name and this hash.
def Current (data : Data) (name hash : String) : Prop :=
  ∃ u ∈ data.data.users, u.name = name ∧ u.hash = hash

def Distinct (data : Data) : Prop :=
  (data.data.users.map (·.name)).Nodup

instance : Decidable (Current data name bhash) :=
  inferInstanceAs (Decidable (∃ u ∈ data.data.users, _))

instance : DecidablePred Distinct :=
  fun data => inferInstanceAs (Decidable (data.data.users.map _).Nodup)

end Auth
end Meta
