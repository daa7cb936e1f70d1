/-
# Storing and sending a block

What the checks see of a block before and after it has been stored or sent.  The bytes that
are hashed treat an all-zero byte string like the empty one, so they never change; the checks
also compare the hash, the key and the signature themselves, and these come back from the wire
empty where they were all-zero.
-/
import Ruvname.Wire
import Ruvname.Reachable

open Exec

variable {P : Platform} {b : Block} {c c' : Chain}

/-! ## The table -/

/-- **What `get_block` reads of what `add_block` has stored.** -/
theorem Chain.getBlock_addBlock (hstored : (c.db.addBlockToTable b).isSome)
    (h : c.addBlock b = .ok c') : c'.getBlock b.index = some b.collapse := by
  obtain ⟨db, hdb⟩ := Option.isSome_iff_exists.mp hstored
  have hget : db.getBlock b.index = some b.collapse := by
    obtain ⟨blocks, hblocks, rfl⟩ := Option.map_eq_some_iff.mp hdb
    show (blocks.find? (asI64 b.index)).map (BlockRow.toBlock (asI64 b.index)) = _
    rw [Table.find?_insert? hblocks, if_pos rfl, Option.map_some, BlockRow.toBlock_ofBlock]
  unfold addBlock at h
  rw [hdb] at h
  cases ht : b.transaction with
  | none =>
    rw [ht] at h
    cases h
    exact hget
  | some t =>
    rw [ht] at h
    dsimp only at h
    cases hrow : db.addTransactionToTable b.index b.timestamp (ownedTransaction b.pubKey t) with
    | none =>
      rw [hrow] at h
      cases h
    | some db' =>
      rw [hrow] at h
      cases h
      -- a domain row is another table
      have hblocks : db'.blocks = db.blocks := by
        unfold Db.addTransactionToTable at hrow
        split at hrow
        · obtain ⟨domains, -, rfl⟩ := Option.map_eq_some_iff.mp hrow
          rfl
        · split at hrow
          · cases hrow
            rfl
          · cases hrow
      show (db'.blocks.find? (asI64 b.index)).map (BlockRow.toBlock (asI64 b.index)) = _
      rw [hblocks]
      exact hget

/-! ## The bytes that are hashed -/

/-- What is dropped is zero anyway. -/
theorem Bytes.isZero_collapse (x : Bytes) : x.collapse.isZero = x.isZero := by
  unfold collapse
  split
  · rename_i h
    rw [h]
    rfl
  · rfl

/-- Zero members are left out of the bytes that are hashed, so dropping them changes nothing
there. -/
theorem bincodeBytes_collapse (x : Bytes) : bincodeBytes x.collapse = bincodeBytes x := by
  unfold bincodeBytes
  rw [x.isZero_collapse]
  by_cases h : x.isZero
  · rw [if_pos h, if_pos h]
  · rw [if_neg h, if_neg h, Bytes.collapse, if_neg h]

/-- The same for a transaction. -/
theorem Transaction.asBytesCompact_collapse (t : Transaction) :
    t.collapse.asBytesCompact = t.asBytesCompact := by
  unfold asBytesCompact collapse
  simp only [bincodeBytes_collapse]

/-- The transaction part of the bytes. -/
theorem Block.asBytesCompact_collapse (b : Block) : b.collapse.asBytesCompact = b.asBytesCompact := by
  unfold asBytesCompact collapse
  cases b.transaction with
  | none => rfl
  | some t => simp only [Option.map_some, Transaction.asBytesCompact_collapse]

/-- And for a whole block. -/
theorem Block.asBytesCompact_emptied (b : Block) : b.emptied.asBytesCompact = b.asBytesCompact := by
  rw [← b.asBytesCompact_collapse]
  unfold asBytesCompact emptied
  simp only [bincodeBytes_collapse]
  rfl

/-! ## The checks -/

/-- The stored form has a good hash exactly if the block has. -/
theorem checkBlockHash_collapse (b : Block) : checkBlockHash P b.collapse = checkBlockHash P b := by
  have hbytes := { b with hash := Bytes.default, signature := Bytes.default }.asBytesCompact_collapse
  unfold checkBlockHash
  rw [← hbytes]
  rfl

/-- And a good signature. -/
theorem checkBlockSignature_collapse (b : Block) :
    checkBlockSignature P b.collapse = checkBlockSignature P b := by
  have hbytes := { b with signature := Bytes.default }.asBytesCompact_collapse
  unfold checkBlockSignature
  rw [← hbytes]
  rfl

/-- What comes over the wire has a good hash if the hash itself survives. -/
theorem checkBlockHash_emptied (hhash : b.hash.collapse = b.hash) :
    checkBlockHash P b.emptied = checkBlockHash P b := by
  have hbytes := { b with hash := Bytes.default, signature := Bytes.default }.asBytesCompact_emptied
  unfold checkBlockHash
  rw [← hbytes, ← hhash]
  rfl

/-- And a good signature, if key and signature survive. -/
theorem checkBlockSignature_emptied (hkey : b.pubKey.collapse = b.pubKey)
    (hsignature : b.signature.collapse = b.signature) :
    checkBlockSignature P b.emptied = checkBlockSignature P b := by
  have hbytes := { b with signature := Bytes.default }.asBytesCompact_emptied
  unfold checkBlockSignature
  rw [← hbytes]
  show keystoreCheck P _ b.pubKey.collapse b.signature.collapse = _
  rw [hkey, hsignature]
  rfl

/-- **Persistence and wire transparency.**  A block that has been stored and read back, and
one that has been sent and received, is the block up to all-zero byte strings.  The bytes that
are hashed are the same; so are the checks of a stored block, and those of a received block
unless an all-zero hash, key or signature came back empty. -/
theorem Block.transparent (hfits : b.asBytes.length < 2 ^ 64) :
    (∀ c c' : Chain, (c.db.addBlockToTable b).isSome → c.addBlock b = .ok c' →
        c'.getBlock b.index = some b.collapse)
      ∧ Block.fromBytes P.checks b.asBytes = .ok (some b.emptied)
      ∧ b.collapse.asBytesCompact = b.asBytesCompact
      ∧ b.emptied.asBytesCompact = b.asBytesCompact
      ∧ checkBlockHash P b.collapse = checkBlockHash P b
      ∧ checkBlockSignature P b.collapse = checkBlockSignature P b
      ∧ (b.hash.collapse = b.hash → checkBlockHash P b.emptied = checkBlockHash P b)
      ∧ (b.pubKey.collapse = b.pubKey → b.signature.collapse = b.signature →
        checkBlockSignature P b.emptied = checkBlockSignature P b) :=
  ⟨fun _ _ hstored h => Chain.getBlock_addBlock hstored h, Block.fromBytes_asBytes P.checks hfits,
    b.asBytesCompact_collapse, b.asBytesCompact_emptied, checkBlockHash_collapse b,
    checkBlockSignature_collapse b, checkBlockHash_emptied, checkBlockSignature_emptied⟩

/-- The origin block survives the wire as it is. -/
theorem Block.transparent_genesis :
    Block.fromBytes true Sample.genesis.asBytes = .ok (some Sample.genesis) := by
  have hfits : Sample.genesis.asBytes.length < 2 ^ 64 := by decide +kernel
  have hsame : Sample.genesis.emptied = Sample.genesis := by decide +kernel
  have hwire := (Block.transparent (P := Sample.platform true) hfits).2.1
  rw [hsame] at hwire
  exact hwire

namespace Sample

/-- A signing block with the all-zero key, the encoding of a point of the curve. -/
def zeroKey : Block := block 2 10 2 (hash [1]) ⟨List.replicate 32 0⟩ none

end Sample

/-- The signature check of a block with an all-zero key returns before it is sent, and panics
after. -/
theorem Block.not_transparent_zeroKey :
    Block.fromBytes true Sample.zeroKey.asBytes = .ok (some Sample.zeroKey.emptied)
      ∧ (checkBlockSignature (Sample.platform true) Sample.zeroKey).Returns
      ∧ checkBlockSignature (Sample.platform true) Sample.zeroKey.emptied
        = .error (.expect "Wrong public key") := by
  refine ⟨Block.fromBytes_asBytes true (by decide +kernel), ?_, by decide +kernel⟩
  exact ⟨true, by decide +kernel⟩
