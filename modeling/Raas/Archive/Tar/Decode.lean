import Raas.Archive.Tar.Gnu

namespace Raas.Tar

open Data

/-! A GNU tar reader. It walks the blocks of a byte string; the data of an `L`
entry, less its closing NUL, is the name of the entry after it. -/

structure Member where
  path : Bytes
  isDir : Bool
  size : Nat
  mode : Nat
  mtime : Nat
  content : Bytes
  position : Nat
deriving DecidableEq, Repr

def zeroBlock : Bytes := List.replicate blockSize 0

/-- Magic and checksum are right. -/
def isHeader (block : Bytes) : Bool :=
  Field.magic.of block == gnuMagic && readOctal (Field.cksum.of block) == checksum block

def withoutNul (data : Bytes) : Bytes := if data.getLast? = some 0 then data.dropLast else data

/-- The members from `position` on, and the position of the closing zero blocks.
`pending` is a long name and where its header was. -/
def walk : Nat → Nat → Option (Bytes × Nat) → Bytes → Option (List Member × Nat)
  | 0, _, _, _ => none
  | fuel + 1, position, pending, bytes => do
      let (block, rest) ← takeBytes blockSize bytes
      if block = zeroBlock then
        guard (pending = none ∧ rest.take blockSize = zeroBlock)
        return ([], position)
      else
        guard (isHeader block)
        let size := readNumber (Field.size.of block)
        let (data, rest) ← takeBytes size rest
        let (_, rest) ← takeBytes (calculatePadding size) rest
        let next := position + blockSize + size + calculatePadding size
        let start := (pending.map Prod.snd).getD position
        let typeflag := Field.typeflag.of block
        if typeflag = [longNameType] then walk fuel next (some (withoutNul data, start)) rest
        else
          guard (typeflag = [fileType] ∨ typeflag = [dirType])
          let name := (Field.name.of block).takeWhile (· != 0)
          let (members, stop) ← walk fuel next none rest
          return ({ path := (pending.map Prod.fst).getD name
                    isDir := decide (typeflag = [dirType])
                    size
                    mode := readNumber (Field.mode.of block)
                    mtime := readNumber (Field.mtime.of block)
                    content := data
                    position := start } :: members, stop)

/-- Every block is visited at most once. -/
def decode (bytes : Bytes) : Option (List Member × Nat) := walk (bytes.length + 1) 0 none bytes

end Raas.Tar
