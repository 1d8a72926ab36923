import CryptoBullion.Common.Store
import CryptoBullion.Model.Primitives
/-!
# The database object, byte for byte

`CTxDB` over LevelDB: keys and values are serialised before they get
there, so the store is one of byte strings. While a batch is open every
lookup walks the whole batch with a `CBatchScanner` that remembers the
last entry under its key, and goes on to the database where it met none.
The object is one opened for writing.
-/

namespace CryptoBullion

/-- `std::string`, as LevelDB takes it -/
abbrev Bytes := List UInt8

/-- The state of a `CTxDB`: LevelDB's map, and `activeBatch`. -/
abbrev RawTxDB := Store Bytes Bytes

/-- `CBatchScanner`, with what its pointers point at -/
structure CBatchScanner where
  foundEntry : Bool
  deleted : Bool
  foundValue : Bytes
  deriving DecidableEq, Repr

/-- `CBatchScanner::Put` and `CBatchScanner::Delete` -/
def CBatchScanner.handle (needle : Bytes) (scanner : CBatchScanner) :
    Write Bytes Bytes → CBatchScanner
  | (key, some value) =>
    if key = needle then { foundEntry := true, deleted := false, foundValue := value }
    else scanner
  | (key, none) =>
    if key = needle then { scanner with foundEntry := true, deleted := true } else scanner

/-- `ScanBatch`: the scanner after every entry of the batch, `value`
being what the caller's string held -/
def scanBatch (activeBatch : List (Write Bytes Bytes)) (key value : Bytes) : CBatchScanner :=
  activeBatch.foldl (CBatchScanner.handle key)
    { foundEntry := false, deleted := false, foundValue := value }

namespace RawTxDB

variable {K T : Type} (serialize : K → Bytes) (unserialize : Bytes → Option T)

/-- `Read`: `none` where it returns `false` -/
def read (txdb : RawTxDB) (key : K) : Option T :=
  let ssKey := serialize key
  let get := txdb.committed[ssKey]?.bind unserialize
  match txdb.activeBatch with
  | none => get
  | some batch =>
    let scanner := scanBatch batch ssKey []
    if scanner.deleted then none
    else if !scanner.foundEntry then get
    else unserialize scanner.foundValue

/-- `Write` -/
def write (txdb : RawTxDB) (key : K) (ssValue : Bytes) : RawTxDB :=
  Store.write txdb (serialize key, some ssValue)

/-- `Erase` -/
def erase (txdb : RawTxDB) (key : K) : RawTxDB := Store.write txdb (serialize key, none)

/-- `Exists` -/
def exists? (txdb : RawTxDB) (key : K) : Bool :=
  let ssKey := serialize key
  let get := txdb.committed.contains ssKey
  match txdb.activeBatch with
  | none => get
  | some batch =>
    let scanner := scanBatch batch ssKey []
    if scanner.foundEntry && !scanner.deleted then true else get

end RawTxDB

end CryptoBullion
