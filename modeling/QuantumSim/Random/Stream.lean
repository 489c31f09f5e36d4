import QuantumSim.Scalar

/-!
Random words. A source is a state that yields one 64-bit word at a time; nothing else about it is
used. The seeded source is ChaCha with twelve rounds, keyed from a 64-bit seed by a permuted
congruential generator. Words leave each block in order, and two of them make a 64-bit word.
-/
namespace QuantumSim

class RandomSource (G : Type) where
  next : G → UInt64 × G

/-- A number in the unit interval, made of one word. -/
def RandomSource.draw {G : Type} (R : Type) [RandomSource G] [Scalar R] (g : G) : R × G :=
  let (word, g) := next g
  (Scalar.ofUnitWord word, g)

namespace Random

/-- The sixteen words of a cipher state. -/
abbrev Block := Vector UInt32 16

def rotateLeft (x : UInt32) (k : UInt32) : UInt32 := (x <<< k) ||| (x >>> (32 - k))

/-- Mixes four words of a state. -/
@[inline] def quarterRound (s : Block) (a b c d : Fin 16) : Block :=
  let s := s.set a (s[a] + s[b])
  let s := s.set d (rotateLeft (s[d] ^^^ s[a]) 16)
  let s := s.set c (s[c] + s[d])
  let s := s.set b (rotateLeft (s[b] ^^^ s[c]) 12)
  let s := s.set a (s[a] + s[b])
  let s := s.set d (rotateLeft (s[d] ^^^ s[a]) 8)
  let s := s.set c (s[c] + s[d])
  s.set b (rotateLeft (s[b] ^^^ s[c]) 7)

/-- Mixes the four columns and then the four diagonals. -/
def doubleRound (s : Block) : Block :=
  let s := quarterRound s 0 4 8 12
  let s := quarterRound s 1 5 9 13
  let s := quarterRound s 2 6 10 14
  let s := quarterRound s 3 7 11 15
  let s := quarterRound s 0 5 10 15
  let s := quarterRound s 1 6 11 12
  let s := quarterRound s 2 7 8 13
  quarterRound s 3 4 9 14

/-- The output block for a key and a block counter. -/
def block (key : Vector UInt32 8) (counter : UInt64) : Block :=
  let start : Block := #v[0x61707865, 0x3320646e, 0x79622d32, 0x6b206574,
    key[0], key[1], key[2], key[3], key[4], key[5], key[6], key[7],
    counter.toUInt32, (counter >>> 32).toUInt32, 0, 0]
  let mixed := (List.range 6).foldl (fun s _ => doubleRound s) start
  Vector.zipWith (· + ·) mixed start

/-- One step of the congruential generator that expands a seed: a key word and the next state. -/
def seedStep (state : UInt64) : UInt32 × UInt64 :=
  let state := state * 6364136223846793005 + 11634580027462260723
  let x := (((state >>> 18) ^^^ state) >>> 27).toUInt32
  let turn := (state >>> 59).toUInt32
  ((x >>> turn) ||| (x <<< ((32 - turn) &&& 31)), state)

/-- The first `n` key words of a seed. -/
def seedWords : Nat → UInt64 → List UInt32
  | 0, _ => []
  | n + 1, state =>
    let (word, state) := seedStep state
    word :: seedWords n state

/-- A position in the stream of a key. -/
structure Stream where
  key : Vector UInt32 8
  /-- The number of blocks begun. -/
  counter : UInt64
  /-- Output not handed out yet. -/
  pending : List UInt32
  deriving Repr, DecidableEq

namespace Stream

/-- The stream of a seed, from its start. -/
def ofSeed (seed : UInt64) : Stream :=
  let words := seedWords 8 seed
  ⟨Vector.ofFn fun i => words.getD i.val 0, 0, []⟩

def join (low high : UInt32) : UInt64 := low.toUInt64 ||| (high.toUInt64 <<< 32)

/-- The next two words, low one first; a new block begins when the last one is used up. -/
def next (s : Stream) : UInt64 × Stream :=
  match s.pending with
  | low :: high :: rest => (join low high, { s with pending := rest })
  | _ =>
    let words := block s.key s.counter
    (join words[0] words[1], ⟨s.key, s.counter + 1, words.toList.drop 2⟩)

instance : RandomSource Stream := ⟨next⟩

end Stream

end Random

end QuantumSim
