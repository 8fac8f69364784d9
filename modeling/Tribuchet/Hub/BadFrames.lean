import Tribuchet.Hub.Served
import Tribuchet.Outputs.InOrder
import Tribuchet.Staging.Build

/-! What a bad frame in the hub's cache does. A frame is not checked when it is read from the cache, and it is
not forgotten when a worker asks for its chunk again. -/

namespace Tribuchet.Hub.Serve

open ByteStrings Hoare Nar List
open ChunkStore (Hash)
open Outputs (Codec Announced)

/-- The answers to a `Need` that is sent again and again. -/
def serveAgain {H σ R P : Type} [DecidableEq H] (host : Host H σ R P) (blake3 : Bytes → H) (cdc : Cdc)
    (sent : List (Manifest H P)) (needed : Finset H) : ℕ → Act (Relay H σ) (ServeError P) Unit
  | 0 => pure ()
  | n + 1 => do
    serveNeed host blake3 cdc sent needed
    serveAgain host blake3 cdc sent needed n

/-- A hub whose cache has a frame for every hash, and none of them is that of its chunk. -/
def rottenHost (root : Node) : Host Bytes Unit Unit Unit :=
  { coldHost root with
    locate := fun _ c => (some (), c)
    read := fun _ c => (some [], c) }

end Tribuchet.Hub.Serve
