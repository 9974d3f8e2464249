import Mathlib.Data.List.Dedup
import SchedArchive.Common.Transaction

-- The tip program's accounts, the tips a transaction pays to them, and the two transactions with
-- which a leader takes over as tip receiver.

namespace TipProgram

def tipPaymentProgram : Pubkey := 0x6aa09548b50476ad462f91f89a3015033264fc9abd5270020a9d142334742fb

def tipPaymentConfig : Pubkey := 0xf7f99a0942fac788054943abbcf946b1f9b916cbe10aedcfa9967665371ca280

def tipAccounts : List Pubkey := [
  0x78521cb179cebb8589b556a2d5ec94d2498682fdf9bb2af5ad64e491cc4153da,
  0xf187ec87d1f745cb3a03384a26a69eda0ca2d1aa0f41e42416377e91ff5b5d31,
  0xb14e0de55e9fba86396ebfd548cff8c92011eac7b75baa9b2d9c6a86f5a17141,
  0x88f1ffa3a2dfe617bdc4e3573251a322e3fcae81e5a457390e64751c00a465e2,
  0xbc2b57065ef1dd665430be606ba6596c0295301badef8b5afc41014150f41274,
  0x89077d55a5bb1330763eb767f55ec077b41a0d075f7de1d73fbaca3c63d55471,
  0xbf971b59108b5b85a04fb093f1e21b4e3fd4c4c8f487dd09b95752769f0dd8c3,
  0x2026101ec20328964a32abab136c5405b91f3ae38ee4f64cb6bde879b86838d2
]

def tipDistributionProgram : Pubkey :=
  0x32bc07c7fde53f2c9f458ae851f2582a9ec4fb000a87d667c4770f16d1d1fc9c

def tipDistributionConfig : Pubkey :=
  0x68538135f909a0469249703e31b0b233cd8bcab5a33a044515b02f16b6e49b5

def systemProgram : Pubkey := 0

def fromLeBytes (bytes : List UInt8) : Nat :=
  bytes.foldr (fun b n => b.toNat + 256 * n) 0

-- The amount a system transfer (discriminator 2) pays to a tip account.
def tipOf (accountKeys : List Pubkey) (ix : Instruction) : Option Nat :=
  if ix.programId ≠ systemProgram ∨ ix.data.length < 12 ∨ fromLeBytes (ix.data.take 4) ≠ 2 then
    none
  else do
    let destIdx ← ix.accounts[1]?
    let dest ← accountKeys[destIdx]?
    if dest ∈ tipAccounts then some (fromLeBytes <| (ix.data.drop 4).take 8) else none

def extractTip (checks : Bool) (tx : Tx) : Except Fault Nat :=
  tx.instructions.filterMap (tipOf tx.staticAccountKeys) |>.foldlM (Machine.add checks) 0

-- The amounts that `extract_tip` adds up.
def tips (tx : Tx) : List Nat :=
  tx.instructions.filterMap (tipOf tx.staticAccountKeys)

theorem extractTip_eq_total {checks : Bool} {tx : Tx} :
    extractTip checks tx = Machine.total checks (tips tx).sum := by
  have h : extractTip checks tx = _ := Machine.foldlM_add (m := 0)
  rwa [Nat.zero_add] at h

theorem ensures_extractTip {checks : Bool} {tx : Tx} {F : Fault → Prop}
    (hf : checks → F .overflow) : (extractTip checks tx).Ensures (fun _ => True) F :=
  Except.ensures_foldlM (fun _ _ _ _ => Machine.ensures_add hf) trivial

structure AccountMeta where
  pubkey     : Pubkey
  isWritable : Bool
  deriving DecidableEq

-- The accounts of a compiled message: the payer, then every account and program of the
-- instructions, each once. An account is writable if any mention of it is.
def accountsOf (payer : Pubkey) (ixs : List (Pubkey × List AccountMeta)) : List Pubkey :=
  (payer :: (ixs.flatMap fun ix => ix.2.map (·.pubkey)) ++ ixs.map (·.1)).dedup

def isWritable (payer : Pubkey) (ixs : List (Pubkey × List AccountMeta)) (a : Pubkey) : Bool :=
  a = payer || ixs.any fun ix => ix.2.any fun m => m.pubkey = a && m.isWritable

-- `Transaction::new_signed_with_payer`, as far as a scheduler reads it: the tip transactions are
-- never priced, so neither their instruction data nor their costs are kept.
def newSignedWithPayer (payer : Pubkey) (ixs : List (Pubkey × List AccountMeta)) : Tx where
  staticAccountKeys := accountsOf payer ixs
  locks             := (accountsOf payer ixs).map fun a => (a, isWritable payer ixs a)
  lookups           := []
  instructions      := []
  costs             := none

structure TipDistributionArgs where
  voteAccount     : Pubkey
  merkleAuthority : Pubkey
  commissionBps   : Nat
  deriving DecidableEq

-- `distributionKey` is the address `find_program_address` derives from the vote account and epoch.
def initTipDistribution (keypair : Pubkey) (args : TipDistributionArgs) (distributionKey : Pubkey) :
    Tx :=
  newSignedWithPayer keypair [
    (tipDistributionProgram, [
      ⟨tipDistributionConfig, false⟩,
      ⟨distributionKey, true⟩,
      ⟨args.voteAccount, false⟩,
      ⟨keypair, true⟩,
      ⟨systemProgram, false⟩
    ])
  ]

structure ChangeTipReceiverArgs where
  oldTipReceiver  : Pubkey
  newTipReceiver  : Pubkey
  oldBlockBuilder : Pubkey
  newBlockBuilder : Pubkey
  deriving DecidableEq

def changeTipReceiver (keypair : Pubkey) (args : ChangeTipReceiverArgs) : Tx :=
  newSignedWithPayer keypair [
    (tipPaymentProgram,
      [⟨tipPaymentConfig, true⟩, ⟨args.oldTipReceiver, true⟩, ⟨args.newTipReceiver, true⟩,
        ⟨args.oldBlockBuilder, true⟩] ++ tipAccounts.map (⟨·, true⟩) ++ [⟨keypair, true⟩]),
    (tipPaymentProgram,
      [⟨tipPaymentConfig, true⟩, ⟨args.newTipReceiver, true⟩, ⟨args.oldBlockBuilder, true⟩,
        ⟨args.newBlockBuilder, true⟩] ++ tipAccounts.map (⟨·, true⟩) ++ [⟨keypair, true⟩])
  ]

variable {payer keypair : Pubkey} {ixs : List (Pubkey × List AccountMeta)}

-- No compiled message names an account twice.
theorem nodup_locks_newSignedWithPayer :
    ((newSignedWithPayer payer ixs).resolvedLocks.map Prod.fst).Nodup := by
  simp only [Tx.resolvedLocks, newSignedWithPayer, List.append_nil, List.map_map, Function.comp_def,
    List.map_id_fun', id]
  exact List.nodup_dedup _

-- The payer of a compiled message is locked for writing.
theorem payer_mem_locks : (payer, true) ∈ (newSignedWithPayer payer ixs).locks := by
  simp [newSignedWithPayer, accountsOf, isWritable]

end TipProgram
