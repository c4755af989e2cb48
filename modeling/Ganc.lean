import Ganc.Dex.Solvency
import Ganc.Dex.Escrow
import Ganc.Dex.OrderIds
import Ganc.Dex.Uncrossed
import Ganc.Dex.Genesis
import Ganc.Dex.Ownership
import Ganc.Dex.LimitPrice
import Ganc.Dex.Denoms
import Ganc.Dex.Liveness
import Ganc.Dex.Independence
import Ganc.Dex.BestPrice
import Ganc.Dex.Exchange
import Ganc.Dex.Edits
import Ganc.Dex.Purge
import Ganc.Dex.Splitting
import Ganc.Dex.Depth
import Ganc.Zkdex.Nullifiers
import Ganc.Zkdex.History
import Ganc.Zkdex.Payout
import Ganc.Zkdex.Replicas
import Ganc.Zkdex.Custody
import Ganc.Zkdex.Export
import Ganc.Zkdex.Malleability
import Ganc.Zkdex.Genesis
import Ganc.Zkdex.Coins
import Ganc.Zkdex.Claimability
import Ganc.Zkdex.Acceptance
import Ganc.Zkdex.Encoding
import Ganc.Zkdex.DepositIds
import Ganc.Circom.FullSimplification
import Ganc.Circom.Clusters
import Ganc.Circom.ConstraintStorage
import Ganc.Circom.ClusterSimplification
import Ganc.Circom.ConstantSimplification
import Ganc.Circom.Rounds
import Ganc.Circom.MapToConstraintList
import Ganc.Circom.Expressions
