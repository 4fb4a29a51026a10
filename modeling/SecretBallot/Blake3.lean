import SecretBallot.Bytes

namespace SecretBallot

namespace Blake3

abbrev Words (n : Nat) := Vector UInt32 n

def initial : Words 8 :=
  #v[0x6A09E667, 0xBB67AE85, 0x3C6EF372, 0xA54FF53A, 0x510E527F, 0x9B05688C, 0x1F83D9AB,
    0x5BE0CD19]

/-- Where each message word of a round stood in the round before. -/
def schedule : Vector (Fin 16) 16 :=
  #v[2, 6, 3, 10, 7, 0, 4, 13, 1, 11, 12, 5, 9, 14, 15, 8]

def chunkStart : UInt32 := 1

def chunkEnd : UInt32 := 2

def parentNode : UInt32 := 4

def rootNode : UInt32 := 8

def rotateRight (word count : UInt32) : UInt32 :=
  (word >>> count) ||| (word <<< (32 - count))

/-- Mixes two message words into four words of the state. -/
def mix (state : Words 16) (a b c d : Fin 16) (x y : UInt32) : Words 16 :=
  let va := state[a] + state[b] + x
  let vd := rotateRight (state[d] ^^^ va) 16
  let vc := state[c] + vd
  let vb := rotateRight (state[b] ^^^ vc) 12
  let va := va + vb + y
  let vd := rotateRight (vd ^^^ va) 8
  let vc := vc + vd
  let vb := rotateRight (vb ^^^ vc) 7
  (((state.set a va).set b vb).set c vc).set d vd

/-- Mixes the columns, then the diagonals. -/
def round (state message : Words 16) : Words 16 :=
  let state := mix state 0 4 8 12 message[0] message[1]
  let state := mix state 1 5 9 13 message[2] message[3]
  let state := mix state 2 6 10 14 message[4] message[5]
  let state := mix state 3 7 11 15 message[6] message[7]
  let state := mix state 0 5 10 15 message[8] message[9]
  let state := mix state 1 6 11 12 message[10] message[11]
  let state := mix state 2 7 8 13 message[12] message[13]
  mix state 3 4 9 14 message[14] message[15]

def permute (message : Words 16) : Words 16 :=
  schedule.map fun i => message[i]

def rounds : (count : Nat) → (state message : Words 16) → Words 16
  | 0, state, _ => state
  | count + 1, state, message => rounds count (round state message) (permute message)

/-- A node of the tree before it is compressed. -/
structure Node where
  chaining : Words 8
  message : Words 16
  counter : UInt64
  length : UInt32
  flags : UInt32

def Node.compress (node : Node) : Words 16 :=
  let start : Words 16 := node.chaining ++ #v[initial[0], initial[1], initial[2], initial[3],
    node.counter.toUInt32, (node.counter >>> 32).toUInt32, node.length, node.flags]
  let state := rounds 7 start node.message
  Vector.ofFn fun i : Fin 16 =>
    if h : i.val < 8 then state[i] ^^^ state[i.val + 8]
    else state[i] ^^^ node.chaining[i.val - 8]

/-- The value that a node hands on to its parent or to the next block of its chunk. -/
def Node.chainingValue (node : Node) : Words 8 :=
  node.compress.take 8

/-- The words of a block of at most 64 bytes, filled up with zeros. -/
def blockWords (block : Bytes) : Words 16 :=
  let bytes := block.toArray
  Vector.ofFn fun i : Fin 16 =>
    let byte (k : Nat) : UInt32 := (bytes.getD (4 * i.val + k) 0).toUInt32
    byte 0 ||| (byte 1 <<< 8) ||| (byte 2 <<< 16) ||| (byte 3 <<< 24)

/-- Cuts into pieces of `size` bytes, the last one shorter, at most `count` of them. -/
def pieces (size : Nat) : (count : Nat) → Bytes → List Bytes
  | 0, _ => []
  | count + 1, bytes =>
    if bytes.length ≤ size then [bytes]
    else bytes.take size :: pieces size count (bytes.drop size)

/-- The node of the last block of a chunk, the earlier blocks compressed into its chaining
    value. -/
def chain (counter : UInt64) (chaining : Words 8) (flags : UInt32) : List Bytes → Node
  | [] => ⟨chaining, blockWords [], counter, 0, flags ||| chunkEnd⟩
  | [last] => ⟨chaining, blockWords last, counter, last.length.toUInt32, flags ||| chunkEnd⟩
  | block :: rest =>
    chain counter (Node.chainingValue ⟨chaining, blockWords block, counter, 64, flags⟩) 0 rest

def chunkNode (counter : Nat) (chunk : Bytes) : Node :=
  chain counter.toUInt64 initial chunkStart (pieces 64 16 chunk)

def parent (left right : Node) : Node :=
  ⟨initial, left.chainingValue ++ right.chainingValue, 0, 64, parentNode⟩

/-- One level of the tree: neighbours are joined, an odd last node goes up as it is. -/
def pairUp : List Node → List Node
  | left :: right :: rest => parent left right :: pairUp rest
  | rest => rest

/-- The root above a level of nodes, in at most `levels` further levels. -/
def rootOf : (levels : Nat) → List Node → Node
  | 0, nodes => nodes.headD (chunkNode 0 [])
  | levels + 1, nodes => rootOf levels (pairUp nodes)

def wordBytes (word : UInt32) : Bytes :=
  Bytes.ofNatLE 4 word.toNat

/-- 64 bytes of output. -/
def hash (input : Bytes) : Bytes :=
  let chunks := pieces 1024 (input.length / 1024 + 1) input
  let nodes := chunks.mapIdx chunkNode
  let root := rootOf (bitLength nodes.length) nodes
  let output := Node.compress { root with counter := 0, flags := root.flags ||| rootNode }
  output.toList.flatMap wordBytes

end Blake3

end SecretBallot
