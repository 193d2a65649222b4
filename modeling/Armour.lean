import Armour.Lib.BTree
import Armour.Lib.Text
import Armour.Lib.Keys
import Armour.Lib.Results
import Armour.Lib.Fuel
import Armour.Lib.Behaviour
import Armour.Lib.Halts
import Armour.Lib.Graph
import Armour.Lib.Simulate
import Armour.Lib.Chunks
import Armour.Lib.Machine
import Armour.Lib.Memo
import Armour.Lib.Wire
import Armour.Lib.Codec
import Armour.Lang.Labels
import Armour.Lang.Captures
import Armour.Lang.LabelOrder
import Armour.Lang.Types
import Armour.Lang.Literals
import Armour.Lang.Expressions
import Armour.Lang.Headers
import Armour.Lang.Builtins
import Armour.Lang.Program
import Armour.Lang.Interpret
import Armour.Lang.Semantics
import Armour.Lang.Closing
import Armour.Lang.Compose
import Armour.Lang.CallByName
import Armour.Lang.Unfolding
import Armour.Lang.Halting
import Armour.Lang.Loader
import Armour.Lang.Policies
import Armour.Lang.Ingress
import Armour.Lang.ControlPlane
import Armour.Lang.Convert
import Armour.Lang.Externals
import Armour.Lang.Marshalling
import Armour.Lang.Typing
import Armour.Lang.Tables
import Armour.Lang.Serialize
import Armour.Lang.Transport
import Armour.Lang.Matching
import Armour.Control.Interpret
import Armour.Control.Identity
import Armour.Control.Services
import Armour.Control.PolicyStore
import Armour.Control.Readers
import Armour.Control.Specialize
import Armour.Control.Peval
import Armour.Control.Faithful
import Armour.Control.Agreement
import Armour.Control.Operators
import Armour.Control.Elements
import Armour.Control.Soundness
import Armour.Control.Preservation
import Armour.Control.Tables
import Armour.Control.Termination
import Armour.Api.Codec
import Armour.Proxy.Policy
import Armour.Proxy.Http
import Armour.Proxy.Tcp
import Armour.Proxy.System
import Armour.Proxy.Dispatch
import Armour.Proxy.Mediation
import Armour.Proxy.Accounting
import Armour.Proxy.Metadata
import Armour.Proxy.Identities
import Armour.Api.Host
import Armour.Host.Instance
import Armour.Host.RestApi
import Armour.Launch.Convert
import Armour.Launch.Rules
import Armour.Launch.Pairing
import Armour.Launch.Deployment
import Armour.Host.Actor
import Armour.Host.Commands
import Armour.Host.Launching
import Armour.Host.LifeCycle
import Armour.Proxy.Listeners
import Armour.Launch.Capabilities
import Armour.Launch.Rewriting
import Armour.Control.Replumbing
import Armour.Lang.Arithmetic
import Armour.Lang.DeadCode
import Armour.Lang.Digits
import Armour.Lang.EarlyReturn
import Armour.Lang.Merging
import Armour.Lang.Numerals
import Armour.Lang.LabelTexts
import Armour.Lang.HttpHeaders
import Armour.Lang.DeBruijn
import Armour.Lang.Branches
import Armour.Control.Simplification
import Armour.Control.Flags
import Armour.Lang.Conditions
import Armour.Lang.Clashes
import Armour.Control.Conversion
import Armour.Control.Compilation
import Armour.Proxy.Enforcement
import Armour.Control.Propagation
