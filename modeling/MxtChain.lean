import MxtChain.Clique.Agreement
import MxtChain.Clique.Votes
import MxtChain.Common.Bitutil
import MxtChain.Consensus.Difficulty
import MxtChain.Consensus.GasLimit
import MxtChain.Consensus.Uncles
import MxtChain.Consensus.VerifyHeaders
import MxtChain.Core.BlockChainSpec
import MxtChain.Core.ForkID
import MxtChain.Core.RefundSpec
import MxtChain.Core.TransactionSigning
import MxtChain.Fetcher.Limit
import MxtChain.Les.FlowControl
import MxtChain.Rlp.StreamSpec
import MxtChain.State.Roots
import MxtChain.Trie.Served
import MxtChain.Trie.StackTrieSpec
import MxtChain.Trie.RangeProofSpec
import MxtChain.Vm.NoPanic
import MxtChain.Vm.Static
import MxtChain.Vm.CallGas
import MxtChain.Miner.Worker
