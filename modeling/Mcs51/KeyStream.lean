import Mcs51.Byte

/-!
# A stream of words from a seed

RAM can start with bytes that look random and are the same every time. They come from the ChaCha
block function with twelve rounds, keyed from a 64-bit seed. The key is eight words of a linear
congruential generator with a permuted output. A block is sixteen words, and the block counter
takes the place of two of the words that go in.

Words are 32 bits and wrap around.
-/

namespace Mcs51
namespace KeyStream

/-! ## 1. The key -/

/-- The next state of the generator for the key. -/
def advance (state : UInt64) : UInt64 := state * 6364136223846793005 + 11634580027462260723

/-- The word that a state gives: some of its bits, rotated by others. -/
def output (state : UInt64) : UInt32 :=
  let word := (((state >>> 18) ^^^ state) >>> 27).toUInt32
  let turn := (state >>> 59).toUInt32
  (word >>> turn) ||| (word <<< ((32 - turn) % 32))

/-- The next words of that generator. -/
def keyWords : Nat → UInt64 → List UInt32
  | 0, _ => []
  | count + 1, state => output (advance state) :: keyWords count (advance state)

/-- The key of a seed. -/
def key (seed : UInt64) : List UInt32 := keyWords 8 seed

/-! ## 2. Blocks -/

/-- Sixteen words, as a square with four in each row. -/
abbrev Block := Vector UInt32 16

/-- A word with its bits rotated to the left. -/
def rotate (word amount : UInt32) : UInt32 := (word <<< amount) ||| (word >>> (32 - amount))

/-- A quarter round: four words of a block are added, combined and rotated. -/
def quarter (block : Block) (a b c d : Fin 16) : Block :=
  let block := block.set a (block[a] + block[b])
  let block := block.set d (rotate (block[d] ^^^ block[a]) 16)
  let block := block.set c (block[c] + block[d])
  let block := block.set b (rotate (block[b] ^^^ block[c]) 12)
  let block := block.set a (block[a] + block[b])
  let block := block.set d (rotate (block[d] ^^^ block[a]) 8)
  let block := block.set c (block[c] + block[d])
  block.set b (rotate (block[b] ^^^ block[c]) 7)

/-- The words of each quarter round: the columns of the square, then its diagonals. -/
def quarters : List (Fin 16 × Fin 16 × Fin 16 × Fin 16) :=
  [(0, 4, 8, 12), (1, 5, 9, 13), (2, 6, 10, 14), (3, 7, 11, 15),
   (0, 5, 10, 15), (1, 6, 11, 12), (2, 7, 8, 13), (3, 4, 9, 14)]

/-- Two rounds: all columns, then all diagonals. -/
def doubleRound (block : Block) : Block :=
  quarters.foldl (fun block (a, b, c, d) => quarter block a b c d) block

/-- The first row of every block. -/
def constants : List UInt32 := [0x61707865, 0x3320646E, 0x79622D32, 0x6B206574]

/-- The block that goes in: the constants, the key, the counter, and nothing else. -/
def input (key : List UInt32) (counter : UInt64) : Block :=
  let words := constants ++ key ++ [counter.toUInt32, (counter >>> 32).toUInt32, 0, 0]
  Vector.ofFn fun i => words.getD i.val 0

/-- The block that comes out: what goes in, after twelve rounds, added to itself as it was. -/
def block (key : List UInt32) (counter : UInt64) : Block :=
  let start := input key counter
  let mixed := Nat.repeat doubleRound 6 start
  Vector.ofFn fun i => mixed[i] + start[i]

/-! ## 3. Bytes -/

/-- The words of the first `count` blocks of a seed. -/
def words (seed : UInt64) (count : Nat) : List UInt32 :=
  (List.range count).flatMap fun n => (block (key seed) n.toUInt64).toList

/-- The lowest byte of each of the first `16 * count` words of a seed. -/
def bytes (seed : UInt64) (count : Nat) : List Byte :=
  (words seed count).map fun word => BitVec.ofNat 8 word.toNat

end KeyStream
end Mcs51
