import BitcoinClib.Lib.Forest
import BitcoinClib.Lib.SearchTree
import Mathlib.Data.Rat.Defs

/-!
Contract: data of the block chains.

Owns:
- block headers, candidate nodes, active chains, heirs and the two search indexes;
- `ChainEnv`, the hash of a header and the difficulty of a compact target;
- `blockchainInit`.

Block hashes are an arbitrary type. Difficulties are exact rationals where the source
uses `double`. Addresses are not reused after a `free`.
-/

namespace BitcoinClib.Chains

open BitcoinClib.Lib

/-- `struct satoshi_block_header`. -/
structure SatoshiBlockHeader (Hash : Type) where
  version : Int32
  prevHash : Hash
  merkleRoot : Hash
  timestamp : UInt32
  bits : UInt32
  nonce : UInt32
deriving DecidableEq

/-- `block_info_t` without its links. `hdr` is NULL in the head of a chain. -/
structure BlockInfo (Hash : Type) where
  hash : Hash
  hdr : Option (SatoshiBlockHeader Hash)
  cumulativeDifficulty : ℚ
deriving DecidableEq

/-- The fields of `active_chain_t` behind its head; `pSearchRoot` tells whether the
pointer to the search root is set. -/
structure ActiveChain where
  longestEnd : Option Ptr
  pSearchRoot : Bool
deriving DecidableEq

/-- `active_chain_list_t` with the memory its nodes live in. A chain has the address of
its head. -/
structure ActiveChainList (Hash : Type) where
  nodes : Heap (BlockInfo Hash)
  activeChains : Ptr → Option ActiveChain
  /-- the next address `calloc` returns -/
  next : Ptr
  chains : List Ptr
  searchRoot : List Ptr

/-- `blockchain_heir_t`. -/
structure BlockchainHeir (Hash : Type) where
  hash : Hash
  timestamp : UInt64
  bits : UInt32
  cumulativeDifficulty : ℚ
  hdr : SatoshiBlockHeader Hash
deriving DecidableEq

/-- A pointer to an heir: the allocation of the array and the index in it. -/
structure HeirRef where
  arena : Nat
  slot : Nat
deriving DecidableEq

/-- A call of `on_remove_block` or `on_add_block`. -/
inductive Callback (Hash : Type) where
  | removeBlock (hash : Hash) (height : Nat)
  | addBlock (hash : Hash) (height : Nat) (hdr : SatoshiBlockHeader Hash)
deriving DecidableEq

/-- `blockchain_t`. `heirs` are the slots up to the last one in use: a slot above it is
written before it is read again. -/
structure Blockchain (Hash : Type) where
  heirs : List (BlockchainHeir Hash)
  /-- the current allocation of `heirs` -/
  arena : Nat
  maxSize : Nat
  height : Nat
  searchRoot : List HeirRef
  candidatesList : ActiveChainList Hash
  callbacks : List (Callback Hash)

/-- What the chains need from hashing and from compact targets, with the constants of the
source. -/
structure ChainEnv (Hash : Type) where
  /-- the value of a zeroed `uint256_t` -/
  zeroHash : Hash
  hash256 : SatoshiBlockHeader Hash → Hash
  compactUint256ToBdiff : UInt32 → ℚ
  genesisBlockHash : Hash
  genesisBlockHdr : SatoshiBlockHeader Hash

variable {Hash : Type}

/-- A zeroed header. -/
def ChainEnv.zeroHdr (env : ChainEnv Hash) : SatoshiBlockHeader Hash :=
  ⟨0, env.zeroHash, env.zeroHash, 0, 0, 0⟩

/-- A zeroed heir. -/
def ChainEnv.zeroHeir (env : ChainEnv Hash) : BlockchainHeir Hash :=
  ⟨env.zeroHash, 0, 0, 0, env.zeroHdr⟩

/-- `BLOCKCHAIN_DEFAULT_ALLOC_SIZE`. -/
def blockchainDefaultAllocSize : Nat := 6 * 24 * 365 * 100

/-- The heir `blockchain_init` writes for the genesis block. -/
def genesisHeir (env : ChainEnv Hash) (hash : Hash) (hdr : SatoshiBlockHeader Hash) :
    BlockchainHeir Hash :=
  ⟨hash, hdr.timestamp.toUInt64, hdr.bits, env.compactUint256ToBdiff hdr.bits, hdr⟩

/-- `active_chain_list_init`. -/
def activeChainListInit : ActiveChainList Hash :=
  ⟨fun _ => none, fun _ => none, 0, [], []⟩

/-- `blockchain_init`; an argument that is NULL is replaced by the default. -/
def blockchainInit (env : ChainEnv Hash) (genesisBlockHash : Option Hash)
    (genesisBlockHdr : Option (SatoshiBlockHeader Hash)) : Blockchain Hash where
  heirs := [genesisHeir env (genesisBlockHash.getD env.genesisBlockHash)
    (genesisBlockHdr.getD env.genesisBlockHdr)]
  arena := 0
  maxSize := blockchainDefaultAllocSize
  height := 0
  searchRoot := [⟨0, 0⟩]
  candidatesList := activeChainListInit
  callbacks := []

end BitcoinClib.Chains
