/-!
The stream of words all randomness comes from: a stream cipher with eight
rounds, run over a growing block counter. A key is spread from a 64-bit seed by
a linear congruential generator with a permuted output.
-/

namespace ShaderGen

/-- Sixteen words, the state a block is computed in. -/
abbrev CipherBlock := Vector UInt32 16

namespace CipherBlock

/-- Rotation to the left. -/
def rotate (x : UInt32) (turn : UInt32) : UInt32 := (x <<< turn) ||| (x >>> (32 - turn))

/-- Adds word `b` to word `a` and mixes the sum into word `d`. -/
def mix (s : CipherBlock) (a b d : Fin 16) (turn : UInt32) : CipherBlock :=
  let s := s.set a (s[a] + s[b])
  s.set d (rotate (s[d] ^^^ s[a]) turn)

/-- Mixes four words of the state. -/
def quarterRound (s : CipherBlock) (a b c d : Fin 16) : CipherBlock :=
  (((s.mix a b d 16).mix c d b 12).mix a b d 8).mix c d b 7

/-- Mixes the columns and then the diagonals. -/
def doubleRound (s : CipherBlock) : CipherBlock :=
  let s := s.quarterRound 0 4 8 12
  let s := s.quarterRound 1 5 9 13
  let s := s.quarterRound 2 6 10 14
  let s := s.quarterRound 3 7 11 15
  let s := s.quarterRound 0 5 10 15
  let s := s.quarterRound 1 6 11 12
  let s := s.quarterRound 2 7 8 13
  s.quarterRound 3 4 9 14

/-- The state before the first round: four constants, the key, the counter with
its low word first and two zero words. -/
def initial (key : Vector UInt32 8) (counter : UInt64) : CipherBlock :=
  #v[0x61707865, 0x3320646e, 0x79622d32, 0x6b206574,
    key[0], key[1], key[2], key[3], key[4], key[5], key[6], key[7],
    counter.toUInt32, (counter >>> 32).toUInt32, 0, 0]

/-- The block of a counter: four double rounds, added to the state before them. -/
def compute (key : Vector UInt32 8) (counter : UInt64) : CipherBlock :=
  let start := initial key counter
  start.zipWith (· + ·) start.doubleRound.doubleRound.doubleRound.doubleRound

end CipherBlock

/-- An endless stream of words and the place reached in it. -/
structure KeyStream where
  key : Vector UInt32 8
  /-- The counter of the block after the current one. -/
  counter : UInt64 := 0
  block : CipherBlock := Vector.replicate 16 0
  /-- The words of the current block that have been read. -/
  used : Nat := 16
deriving Repr

namespace KeyStream

/-- The state of the seeding generator and the word it yields. -/
def seedStep (state : UInt64) : UInt64 × UInt32 :=
  let state := state * 6364136223846793005 + 11634580027462260723
  let x := (((state >>> 18) ^^^ state) >>> 27).toUInt32
  let turn := (state >>> 59).toUInt32
  (state, (x >>> turn) ||| (x <<< ((32 - turn) % 32)))

/-- The stream of a seed. -/
def ofSeed (seed : UInt64) : KeyStream :=
  let (_, words) := (List.range 8).foldl
    (fun (state, words) _ =>
      let (state, word) := seedStep state
      (state, words.push word))
    (seed, #[])
  { key := Vector.ofFn fun i : Fin 8 => words.getD i 0 }

/-- The next word of the stream. -/
def next (s : KeyStream) : UInt32 × KeyStream :=
  if h : s.used < 16 then (s.block[s.used], { s with used := s.used + 1 })
  else
    let block := CipherBlock.compute s.key s.counter
    (block[0], { s with counter := s.counter + 1, block := block, used := 1 })

/-- The next words as one number, the first word lowest. -/
def nextWords : Nat → KeyStream → Nat × KeyStream
  | 0, s => (0, s)
  | count + 1, s =>
    let (low, s) := s.next
    let (high, s) := nextWords count s
    (low.toNat + UInt32.size * high, s)

/-- The next two words as one. -/
def next64 (s : KeyStream) : UInt64 × KeyStream :=
  let (low, s) := s.next
  let (high, s) := s.next
  (low.toUInt64 ||| (high.toUInt64 <<< 32), s)

/-- How many numbers can be read from so many words. -/
def wordCount (words : Nat) : Nat := Nat.pow UInt32.size words

theorem wordCount_pos (words : Nat) : 0 < wordCount words := Nat.pow_pos (by decide)

/-- A number read from words is one of the numbers that can be read from them. -/
theorem nextWords_lt (count : Nat) (s : KeyStream) : (nextWords count s).1 < wordCount count := by
  induction count generalizing s with
  | zero => exact wordCount_pos 0
  | succ count ih =>
    simp only [nextWords]
    have hlow : s.next.1.toNat < UInt32.size := s.next.1.toNat_lt
    have hhigh := ih s.next.2
    have hcount : wordCount (count + 1) = UInt32.size * wordCount count := Nat.mul_comm _ _
    rw [hcount]
    have : UInt32.size * (nextWords count s.next.2).1 + UInt32.size ≤
        UInt32.size * wordCount count := by
      rw [← Nat.mul_succ]
      exact Nat.mul_le_mul_left _ hhigh
    omega

end KeyStream

end ShaderGen
