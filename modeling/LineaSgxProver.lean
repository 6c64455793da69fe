import LineaSgxProver.Machine
import LineaSgxProver.Library.Action
import LineaSgxProver.Library.MerkleTree
import LineaSgxProver.Library.LinkedList
import LineaSgxProver.Library.Run
import LineaSgxProver.Library.LittleEndian
import LineaSgxProver.Library.Occurrence
import LineaSgxProver.Library.Der
import LineaSgxProver.Library.Calendar
import LineaSgxProver.Library.Loop
import LineaSgxProver.Mimc.Field
import LineaSgxProver.Mimc.Hash
import LineaSgxProver.Zktrie.Node
import LineaSgxProver.Zktrie.Database
import LineaSgxProver.Zktrie.SparseMerkleTrie
import LineaSgxProver.Zktrie.Storage
import LineaSgxProver.Zktrie.Trie
import LineaSgxProver.Zktrie.NodeStore
import LineaSgxProver.Zktrie.TreeWrite
import LineaSgxProver.Zktrie.World
import LineaSgxProver.Zktrie.IndexMap
import LineaSgxProver.Zktrie.LeafList
import LineaSgxProver.Zktrie.LeafOps
import LineaSgxProver.Zktrie.LinkedLeaves
import LineaSgxProver.Zktrie.WriteAlgebra
import LineaSgxProver.Zktrie.TableHash
import LineaSgxProver.Zktrie.AdmittedOps
import LineaSgxProver.Zktrie.Capacity
import LineaSgxProver.Zktrie.TraceStore
import LineaSgxProver.Zktrie.ProofStore
import LineaSgxProver.Zktrie.ReadSoundness
import LineaSgxProver.Zktrie.LookupAgreement
import LineaSgxProver.Zktrie.ProofReach
import LineaSgxProver.Zktrie.CleanFailures
import LineaSgxProver.Zktrie.StagedIndex
import LineaSgxProver.Zktrie.TraceRoot
import LineaSgxProver.Zktrie.LeafCodec
import LineaSgxProver.Zktrie.TraceCodec
import LineaSgxProver.Zktrie.MalformedWitness
import LineaSgxProver.Zktrie.IndexLog
import LineaSgxProver.Zktrie.FailedWrites
import LineaSgxProver.Zktrie.HonestTrace
import LineaSgxProver.Zktrie.Replay
import LineaSgxProver.Linea.BatchTask
import LineaSgxProver.Linea.Account
import LineaSgxProver.Linea.StorageValue
import LineaSgxProver.Linea.TrieCache
import LineaSgxProver.Linea.ZkTrieState
import LineaSgxProver.Linea.AccountOverlay
import LineaSgxProver.Linea.MissingUpdates
import LineaSgxProver.Linea.Existence
import LineaSgxProver.Linea.BlockHashes
import LineaSgxProver.Verifier.Solidity
import LineaSgxProver.Verifier.SGXVerifier
import LineaSgxProver.Verifier.CommitBatch
import LineaSgxProver.Verifier.V3Parser
import LineaSgxProver.Verifier.AutomataDcapV3Attestation
import LineaSgxProver.Verifier.QuoteVerification
import LineaSgxProver.Verifier.CertChain
import LineaSgxProver.Verifier.QuoteGrammar
import LineaSgxProver.Verifier.SplitCertificateChain
import LineaSgxProver.Verifier.Asn1Decode
import LineaSgxProver.Verifier.X509DateUtils
import LineaSgxProver.Verifier.PEMCertChainLib
import LineaSgxProver.Verifier.Certificate
import LineaSgxProver.Verifier.CertSignature
import LineaSgxProver.Verifier.CertValidity
import LineaSgxProver.Verifier.CertTraversal
import LineaSgxProver.Verifier.SgxExtension
import LineaSgxProver.Verifier.ExtensionSearch
import LineaSgxProver.Linea.Prover
import LineaSgxProver.Zktrie.ReplayRun
import LineaSgxProver.Library.Powers
import LineaSgxProver.Linea.AccountCodes
import LineaSgxProver.Mimc.Blocks
import LineaSgxProver.Mimc.Cipher
import LineaSgxProver.Zktrie.LeafPath
import LineaSgxProver.Library.CubicRoots
import LineaSgxProver.Library.ShortWeierstrass
import LineaSgxProver.Verifier.AffinePoints
import LineaSgxProver.Verifier.Es256
import LineaSgxProver.Library.Memory
import LineaSgxProver.Library.Pkcs1
import LineaSgxProver.Library.Sha1
import LineaSgxProver.Verifier.AttestedCommits
import LineaSgxProver.Verifier.RsaVerify
import LineaSgxProver.Verifier.SigVerifyLib
import LineaSgxProver.Library.OrderedMap
import LineaSgxProver.Linea.ParallelProof
import LineaSgxProver.Zktrie.RootBinding
import LineaSgxProver.Linea.KeyRotation
import LineaSgxProver.Linea.Prestate
import LineaSgxProver.Linea.StorageOverlay
import LineaSgxProver.Linea.TraceExecution
