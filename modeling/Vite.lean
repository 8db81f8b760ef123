import Vite.Lib.TwosComplement
import Vite.Lib.BinaryFloat
import Vite.Lib.BigEndian
import Vite.Lib.Strconv
import Vite.Lib.BigFloat
import Vite.Vm.Instructions
import Vite.Vm.MathBig
import Vite.Vm.WordSpec
import Vite.Vm.Quota
import Vite.Vm.Memory
import Vite.Vm.Interpreter
import Vite.Lib.BitBytes
import Vite.Vm.Destination
import Vite.Vm.Abi
import Vite.Dex.Price
import Vite.Dex.OrderId
import Vite.Lib.AssocList
import Vite.Dex.Calculator
import Vite.Dex.Order
import Vite.Dex.Matcher
import Vite.Dex.Trade
import Vite.Dex.Walk
import Vite.Dex.Priority
import Vite.Dex.Settle
import Vite.Lib.ExceptRun
import Vite.Lib.GoList
import Vite.Chain.QuotaList
import Vite.Dex.Place
import Vite.Dex.Lifetime
import Vite.Dex.Cancel
import Vite.Contracts.Asset
import Vite.Consensus.Schedule
import Vite.Lib.ListRange
import Vite.Lib.GoSort
import Vite.Lib.GoSort.Insertion
import Vite.Lib.GoSort.Heap
import Vite.Lib.GoSort.Partition
import Vite.Lib.GoSort.Sorted
import Vite.Consensus.Election
import Vite.Contracts.Quota
import Vite.Chain.StateWrite
import Vite.Dex.MarketBuy
import Vite.Dex.SettleActions
import Vite.Contracts.Governance
import Vite.Vm.AbiType
import Vite.Vm.BlockQuota
import Vite.Core.AccountBlock
import Vite.Vm.Receive
import Vite.Lib.TableIter
import Vite.Lib.ByteOrder
import Vite.Db.Iterator
import Vite.Db.MergedIterator
import Vite.Dex.Dividend
import Vite.Tools.Circle
import Vite.Lib.NextPath
import Vite.Tools.LinkedList
import Vite.Net.EndPoint
import Vite.Net.Node
import Vite.Net.Neighbors
import Vite.Lib.Kahn
import Vite.Tools.TopoGraph
import Vite.Tools.TopoSort
import Vite.Lib.Protobuf
import Vite.Net.Message
import Vite.Net.Codec
import Vite.Net.Table
import Vite.Lib.SortedScan
import Vite.Lib.ParentForest
import Vite.Onroad.ContractPool
import Vite.Common.Types
import Vite.Pool.Branch
import Vite.Pool.Tree
import Vite.Pool.Shape
import Vite.Pool.MainLink
import Vite.Pool.Ring
import Vite.Pool.Run
