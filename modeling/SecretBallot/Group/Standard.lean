import SecretBallot.Group.Basic

namespace SecretBallot

namespace Group

/-- The words of a safe prime of 2048 bits, the highest first. -/
def standardWords : List Nat := [
  0xFFFFFFFFFFFFFFFF, 0xC90FDAA22168C234, 0xC4C6628B80DC1CD1, 0x29024E088A67CC74,
  0x020BBEA63B139B22, 0x514A08798E3404DD, 0xEF9519B3CD3A431B, 0x302B0A6DF25F1437,
  0x4FE1356D6D51C245, 0xE485B576625E7EC6, 0xF44C42E9A637ED6B, 0x0BFF5CB6F406B7ED,
  0xEE386BFB5A899FA5, 0xAE9F24117C4B1FE6, 0x49286651ECE45B3D, 0xC2007CB8A163BF05,
  0x98DA48361C55D39A, 0x69163FA8FD24CF5F, 0x83655D23DCA3AD96, 0x1C62F356208552BB,
  0x9ED529077096966D, 0x670C354E4ABC9804, 0xF1746C08CA18217C, 0x32905E462E36CE3B,
  0xE39E772C180E8603, 0x9B2783A2EC07A28F, 0xB5C55DF06F4C52C9, 0xDE2BCBF695581718,
  0x3995497CEA956AE5, 0x15D2261898FA0510, 0x15728E5A8AACAA68, 0xFFFFFFFFFFFFFFFF]

def standardPrime : Nat :=
  standardWords.foldl (fun n word => (n <<< 64) + word) 0

/-- The group in which the key generator makes keys. Its generator is four. -/
def standard : Except Error Group :=
  new standardPrime 4

end Group

end SecretBallot
