import GooglePerl.Auth.JsonValue

/-!
`Google::Auth::IDTokens::KeySources`: where the verifier gets its keys.

`current_keys` and `refresh_keys` of a static or an HTTP source return an array
reference. Those of an aggregate return an array, and what the caller gets then depends
on its context: the elements in a list, their number where one value is wanted.
-/

namespace GooglePerl.Auth

open GooglePerl.Lib
open GooglePerl.Protobuf (PerlStr ps Die)

variable {K : Type}

/-- `KeyInfo`; `K` is the type of the public keys. -/
structure KeyInfo (K : Type) where
  id : Option PerlStr
  key : K
  algorithm : Option PerlStr := none

/-- What a method returns where one value is wanted. -/
inductive Reply (K : Type) where
  | arrayRef (keys : List (KeyInfo K))
  | number (n : ℕ)

/-- `@$keys_ref`, under `use strict` -/
def Reply.deref : Reply K → Except Die (List (KeyInfo K))
  | .arrayRef keys => .ok keys
  | .number _ => .error (.fault .notReference)

/-- What a source answers when the verifier asks for its keys, and when it then asks it
to refresh them. -/
structure Replies (K : Type) where
  currentKeys : Except Die (Reply K)
  refreshKeys : Except Die (Reply K)

/-! ### HTTP key sources -/

/-- The answer to a download. -/
structure Download where
  success : Bool
  status : PerlStr
  reason : PerlStr
  content : PerlStr

/-- What a refresh meets: the clock, the answer to a download, and the clock after it. -/
structure Fetch where
  now : ℚ
  download : Download
  later : ℚ

/-- `HttpKeySource`. The decoder and `interpret_json` are those of its class. -/
structure HttpKeySource (K : Type) where
  uri : PerlStr
  retryInterval : ℚ := 3600
  allowRefreshAt : ℚ
  currentKeys : List (KeyInfo K) := []
  decode : PerlStr → Except PerlStr JsonValue
  interpretJson : JsonValue → Except Die (List (KeyInfo K))

namespace HttpKeySource

/-- A download: the keys that it brings. -/
def load (s : HttpKeySource K) (got : Download) : Except Die (List (KeyInfo K)) :=
  if !got.success then
    .error (.croak (ps "KeySourceError: Unable to retrieve data from " ++ s.uri ++ ps ": " ++
      got.status ++ ps " " ++ got.reason))
  else
    match s.decode got.content with
    | .error why => .error (.croak (ps "KeySourceError: Unable to parse JSON: " ++ why))
    | .ok data => s.interpretJson data

/-- `refresh_keys`, and the source as it is afterwards. -/
def refreshKeys (s : HttpKeySource K) (f : Fetch) :
    Except Die (List (KeyInfo K)) × HttpKeySource K :=
  if f.now < s.allowRefreshAt then (.ok s.currentKeys, s)
  else
    match s.load f.download with
    | .error why => (.error why, s)
    | .ok keys =>
        (.ok keys, { s with currentKeys := keys, allowRefreshAt := f.later + s.retryInterval })

end HttpKeySource

/-! ### All key sources -/

/-- A key source; one that downloads comes with what its next refresh meets. -/
inductive KeySource (K : Type) where
  | static (keys : List (KeyInfo K))
  | http (source : HttpKeySource K) (next : Fetch)
  | aggregate (sources : List (KeySource K))

namespace KeySource

mutual

/-- `current_keys` in a list: array references. -/
def currentList : KeySource K → List (List (KeyInfo K))
  | .static keys => [keys]
  | .http source _ => [source.currentKeys]
  | .aggregate sources => currentLists sources

/-- `@current_keys_set` -/
def currentLists : List (KeySource K) → List (List (KeyInfo K))
  | [] => []
  | s :: sources => s.currentList ++ currentLists sources

end

/-- `current_keys` where one value is wanted. -/
def currentKeys : KeySource K → Reply K
  | .static keys => .arrayRef keys
  | .http source _ => .arrayRef source.currentKeys
  | .aggregate sources => .number (currentLists sources).length

/-- `$@`, without the place it came from. -/
def evalError : Die → PerlStr
  | .croak text => text
  | .fault _ => ps "Not a reference"

mutual

/-- What `refresh_keys` does to a source, and whether it dies. -/
def refresh : KeySource K → Except Die Unit × KeySource K
  | .static keys => (.ok (), .static keys)
  | .http source next =>
      ((source.refreshKeys next).1.map fun _ => (), .http (source.refreshKeys next).2 next)
  | .aggregate sources => ((refreshAll sources).1, .aggregate (refreshAll sources).2)

/-- The loop of an aggregate: the first source that dies ends it. -/
def refreshAll : List (KeySource K) → Except Die Unit × List (KeySource K)
  | [] => (.ok (), [])
  | s :: sources =>
      match s.refresh with
      | (.error why, s') =>
          (.error (.croak (ps "KeySourceError: " ++ evalError why)), s' :: sources)
      | (.ok _, s') => ((refreshAll sources).1, s' :: (refreshAll sources).2)

end

/-- `refresh_keys` where one value is wanted: the keys that the source then has. -/
def refreshKeys (s : KeySource K) : Except Die (Reply K) :=
  s.refresh.1.map fun _ => s.refresh.2.currentKeys

def replies (s : KeySource K) : Replies K := ⟨.ok s.currentKeys, s.refreshKeys⟩

end KeySource

end GooglePerl.Auth
