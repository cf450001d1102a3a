import LuaInfer.LogFormat
import LuaInfer.Options.Encode
import LuaInfer.Options.Load
import LuaInfer.Program.Command
import LuaInfer.Session.Query
import LuaInfer.Proofs.Ownership
import LuaInfer.Proofs.Final
import LuaInfer.Proofs.Sound
import LuaInfer.Proofs.Complete
import LuaInfer.Proofs.Order
import LuaInfer.Proofs.Balance
import LuaInfer.Proofs.Safe
import LuaInfer.Proofs.Terminate
import LuaInfer.Proofs.Template
import LuaInfer.Proofs.Apart
import LuaInfer.Proofs.Cutoff
import LuaInfer.Proofs.Ancestry
import LuaInfer.Proofs.Journal
import LuaInfer.Proofs.Draft
import LuaInfer.Proofs.Paths
import LuaInfer.Proofs.Naming
import LuaInfer.Proofs.Access
import LuaInfer.Proofs.Dotted
import LuaInfer.Proofs.Receiver
import LuaInfer.Proofs.Brackets
import LuaInfer.Proofs.Links
import LuaInfer.Proofs.Keep
import LuaInfer.Proofs.Firm
import LuaInfer.Proofs.Annotated
import LuaInfer.Proofs.Draws
import LuaInfer.Proofs.Fields
import LuaInfer.Proofs.Keyed
import LuaInfer.Proofs.Regime
import LuaInfer.Proofs.Leftover
import LuaInfer.Proofs.Instance
import LuaInfer.Proofs.Instantiate
import LuaInfer.Proofs.Nesting
import LuaInfer.Proofs.Budget
import LuaInfer.Proofs.Evaluate
import LuaInfer.Proofs.Adjust
import LuaInfer.Proofs.Passing
import LuaInfer.Proofs.Results
import LuaInfer.Proofs.Delegation
import LuaInfer.Proofs.Decode
import LuaInfer.Proofs.Encode
import LuaInfer.Proofs.Unions
import LuaInfer.Proofs.Guard
import LuaInfer.Proofs.Walk
import LuaInfer.Proofs.Forest
import LuaInfer.Proofs.Cursor
