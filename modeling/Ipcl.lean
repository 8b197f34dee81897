import Ipcl.Lib.Vec
import Ipcl.Lib.Transition
import Ipcl.Spec.Paillier
import Ipcl.Spec.Pipeline
import Ipcl.BigNumber
import Ipcl.BigNumber.Bits
import Ipcl.ModExp
import Ipcl.CipherText
import Ipcl.PriKey
import Ipcl.Expr
import Ipcl.KeyGen
import Ipcl.Proofs.CipherText
import Ipcl.Proofs.Decrypt
import Ipcl.Proofs.Toggle
import Ipcl.Proofs.Homomorphic
import Ipcl.Proofs.KeyGen
import Ipcl.Proofs.Serialize
import Ipcl.Proofs.ModExp
import Ipcl.Proofs.Lanes
import Ipcl.Proofs.Signed
import Ipcl.Proofs.Archive
import Ipcl.Proofs.BaseText
import Ipcl.Proofs.Djn
import Ipcl.Proofs.Subtract
import Ipcl.Proofs.Rotate
import Ipcl.Proofs.PlainText
import Ipcl.Proofs.Octets
import Ipcl.Proofs.Constructors
import Ipcl.Proofs.Ranges
import Ipcl.Proofs.Create
import Ipcl.Proofs.FixedRandom
import Ipcl.Proofs.Obfuscate
import Ipcl.Proofs.Operators
import Ipcl.Proofs.TestBit
import Ipcl.Proofs.Positions
import Ipcl.Proofs.Numeral
import Ipcl.Proofs.LoadKey
import Ipcl.Proofs.HeQat.Runtime
import Ipcl.Proofs.HeQat.Requests
import Ipcl.Proofs.HeQat.Context
import Ipcl.Proofs.HeQat.Sessions
import Ipcl.Proofs.HeQat.Failures
import Ipcl.Proofs.HeQat.Misc
import Ipcl.Proofs.HeQat.Dispatch
import Ipcl.Proofs.HeQat.Throttle
import Ipcl.Proofs.HeQat.Devices
import Ipcl.Proofs.HeQat.Barrier
import Ipcl.Proofs.HeQat.Drain
import Ipcl.Proofs.HeQat.Fairness
import Ipcl.Proofs.HeQat.Shutdown
import Ipcl.Proofs.HeQat.Returns
import Ipcl.Proofs.Program
import Ipcl.Proofs.Hybrid
